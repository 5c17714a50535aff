import X86Osdev.Asm.Interrupt
import X86Osdev.Proc.ContextSwitch

/-! Interrupts in runs of threads: the interrupted code goes on with its registers, whatever ran in between. -/

namespace X86Osdev.Proc
open StackMachine StackMachine.Cpu ByteMemory Runs X86Osdev.Asm

/-- The step leaves the bytes of `F`, on the stack of the thread at `t`, to that thread, and the thread itself leaves
them alone. -/
def FrameSafe (g : Globals) (t : Word) (F : Set ℕ) (s : SwitchSys) : SwitchEvent → Prop
  | .work after => current g s.cpu.mem = t → Touches (2 ^ 32) Fᶜ s.cpu.mem after.mem
  | .create _ _ _ after => current g s.cpu.mem = t → Touches (2 ^ 32) Fᶜ s.cpu.mem after.mem
  | .reap u => u ≠ t
  | .switch => current g s.cpu.mem = t → Disjoint F (span (s.cpu.esp - 32) 32)

/-- Steps during a handler of the thread at `t` whose frame is `F`. -/
abbrev HandlerSteps (g : Globals) (t : Word) (F : Set ℕ) : SwitchSys → SwitchSys → Prop :=
  Steps (switchStep g) fun s ev => SwitchAllowed g s ev ∧ FrameSafe g t F s ev

structure InHandler (g : Globals) (t : Word) (S F : Set ℕ) (m : Memory) (s : SwitchSys) : Prop where
  stack : s.stack t = some S
  present : current g s.cpu.mem = t ∨ (s.parked t).isSome
  mem : ∀ x ∈ F, x < 2 ^ 32 → s.cpu.mem x = m x

section Handler
variable {g : Globals} {s s' : SwitchSys} {t : Word} {S F : Set ℕ} {m : Memory}

attribute [local irreducible] switchToThread

theorem InHandler.kept (h : InHandler g t S F m s) (hF : F ⊆ S) {after : Memory}
    (hm : Touches (2 ^ 32) (Kept g s)ᶜ s.cpu.mem after)
    (hown : current g s.cpu.mem = t → Touches (2 ^ 32) Fᶜ s.cpu.mem after) :
    ∀ x ∈ F, x < 2 ^ 32 → after x = m x := by
  intro x hx hlt
  refine Eq.trans ?_ (h.mem x hx hlt)
  rcases h.present with hcur | hparked
  · exact hown hcur x hlt fun hout => hout hx
  · obtain ⟨c, hc⟩ := Option.isSome_iff_exists.mp hparked
    exact hm x hlt fun hout => hout (stack_subset_kept hc h.stack (hF hx))

theorem InHandler.switch (h : InHandler g t S F m s) (hi : SwitchInv g s) (hF : F ⊆ S)
    (hok : SwitchAllowed g s .switch) (hown : current g s.cpu.mem = t → Disjoint F (span (s.cpu.esp - 32) 32)) :
    InHandler g t S F m { s with
      cpu := switchToThread g s.cpu
      parked := Function.update (parkedAtCall g s) (argument s.cpu) none } := by
  have hout : ∀ x ∈ F, x ∉ span (s.cpu.esp - 32) 32 := by
    intro x hx
    by_cases hcur : current g s.cpu.mem = t
    · exact Set.disjoint_left.mp (hown hcur) hx
    · exact hi.frame_apart hok h.stack (Ne.symm hcur) (hF hx)
  refine ⟨h.stack, ?_, fun x hx hlt => ?_⟩
  · obtain ⟨c, hc⟩ := Option.isSome_iff_exists.mp hok.2.2.1
    by_cases hto : argument s.cpu = t
    · exact .inl ((hi.switch hok hc).1.current.trans hto)
    · refine .inr ?_
      simp only [Function.update_of_ne (Ne.symm hto), parkedAtCall]
      by_cases hcur : t = current g s.cpu.mem
      · simp [hcur]
      · rw [Function.update_of_ne hcur]
        exact h.present.resolve_left (Ne.symm hcur)
  · exact (hi.switch_kept hok h.stack (hF hx) hlt (hout x hx)).trans (h.mem x hx hlt)

theorem InHandler.step {ev : SwitchEvent} (h : InHandler g t S F m s) (hi : SwitchInv g s) (hF : F ⊆ S)
    (hok : SwitchAllowed g s ev) (hsafe : FrameSafe g t F s ev) (hstep : switchStep g ev s = some s') :
    InHandler g t S F m s' := by
  cases ev with
  | work after =>
    have hcur : current g after.mem = current g s.cpu.mem := SwitchInv.current_kept hok.1
    cases hstep
    exact ⟨h.stack, h.present.imp_left hcur.trans, h.kept hF hok.1 hsafe⟩
  | create u S' d after =>
    have hcur : current g after.mem = current g s.cpu.mem := SwitchInv.current_kept hok.1
    have hut : t ≠ u := by
      rintro rfl
      have hnone := hok.2.2.1
      rw [h.stack] at hnone
      cases hnone
    cases hstep
    refine ⟨?_, h.present.imp hcur.trans fun hp => ?_, h.kept hF hok.1 hsafe⟩
    · simpa [Function.update_of_ne hut] using h.stack
    · simpa [Function.update_of_ne hut] using hp
  | reap u =>
    have hut : t ≠ u := Ne.symm hsafe
    cases hstep
    refine ⟨?_, h.present.imp_right fun hp => ?_, h.mem⟩
    · simpa [Function.update_of_ne hut] using h.stack
    · simpa [Function.update_of_ne hut] using hp
  | switch =>
    have hnext := h.switch hi hF hok hsafe
    rw [switchStep, Option.some.injEq] at hstep
    subst hstep
    exact hnext

theorem InHandler.run (h : InHandler g t S F m s) (hi : SwitchInv g s) (hF : F ⊆ S) (hrun : HandlerSteps g t F s s') :
    InHandler g t S F m s' ∧ SwitchInv g s' := by
  refine hrun.invariant (I := fun s => InHandler g t S F m s ∧ SwitchInv g s) ?_ ⟨h, hi⟩
  rintro s ev s' ⟨hh, hi⟩ ⟨hok, hsafe⟩ hstep
  exact ⟨hh.step hi hF hok hsafe hstep, switchInv_step hi hok hstep⟩

end Handler

/-- How far an interrupt of `s` takes the stack. -/
def trapSize (s : Cpu) : ℕ := if level s.cs = 0 then 60 else 68

def trapBytes (s : Cpu) (a : Word) : Set ℕ := span (a + 4) (trapSize s - 4)

/-- The interrupted code goes on where it was with all its registers; `es`, `fs` and `gs` follow `ds`, and interrupts
are allowed whether or not they were. -/
structure GoesOn (s s' : Cpu) : Prop where
  eax : s'.eax = s.eax
  ecx : s'.ecx = s.ecx
  edx : s'.edx = s.edx
  ebx : s'.ebx = s.ebx
  ebp : s'.ebp = s.ebp
  esi : s'.esi = s.esi
  edi : s'.edi = s.edi
  esp : s'.esp = s.esp
  eip : s'.eip = s.eip
  cs : s'.cs = s.cs
  ss : s'.ss = s.ss
  eflags : s'.eflags = s.eflags ||| interruptFlag
  segments : s'.ds = s.ds ∧ s'.es = s.ds ∧ s'.fs = s.ds ∧ s'.gs = s.ds

section Return
variable {g : Globals} {s s' : Cpu} {v : ℕ} {m : Memory}

theorem trapRegisters_length (s : Cpu) (useless e n : Word) :
    4 * (trapRegisters s useless e n).length = trapSize s - 4 := by
  by_cases hinner : level s.cs = 0 <;> simp [trapRegisters, trapSize, hinner]

theorem trapBytes_subset (s : Cpu) (a : Word) : trapBytes s a ⊆ span a (trapSize s) := by
  refine span_add_subset ?_
  unfold trapSize
  split <;> decide

theorem goesOn_of_mirrors {a : Word} (hmirror : Mirrors v s (registersAt m (a + 4)))
    (hleaves : Leaves (registersAt m (a + 4)) a s'.ss m (stubExit v s'))
    (hinner : level s.cs = 0 → a = s.esp - 60 ∧ s'.ss = s.ss) : GoesOn s (stubExit v s') := by
  have hcs : wordSelector (registersAt m (a + 4)).cs = s.cs := hmirror.cs
  have hds := hmirror.ds
  have hend : (stubExit v s').esp = s.esp ∧ (stubExit v s').ss = s.ss := by
    by_cases hlevel : level s.cs = 0
    · obtain ⟨ha, hss⟩ := hinner hlevel
      obtain ⟨hesp, hss'⟩ := hleaves.inner (by rwa [hcs])
      refine ⟨?_, hss'.trans hss⟩
      rw [hesp, ha]
      bv_omega
    · obtain ⟨hesp, hss⟩ := hmirror.outer hlevel
      obtain ⟨hesp', hss'⟩ := hleaves.outer (by rwa [hcs])
      exact ⟨hesp'.trans hesp, hss'.trans hss⟩
  obtain ⟨hd, he, hf, hg⟩ := hleaves.segments
  exact {
    eax := hleaves.eax.trans hmirror.eax
    ecx := hleaves.ecx.trans hmirror.ecx
    edx := hleaves.edx.trans hmirror.edx
    ebx := hleaves.ebx.trans hmirror.ebx
    ebp := hleaves.ebp.trans hmirror.ebp
    esi := hleaves.esi.trans hmirror.esi
    edi := hleaves.edi.trans hmirror.edi
    esp := hend.1
    eip := hleaves.eip.trans hmirror.eip
    cs := hleaves.cs.trans hcs
    ss := hend.2
    eflags := by rw [hleaves.eflags, hmirror.eflags]
    segments := ⟨hd.trans hds, he.trans hds, hf.trans hds, hg.trans hds⟩ }

/-- What the running thread does on its own stack only is a step that it may take. -/
theorem SwitchInv.onStack_allowed {sys : SwitchSys} {S : Set ℕ} {after : Cpu} (hi : SwitchInv g sys)
    (hS : sys.stack (current g sys.cpu.mem) = some S) (htouch : Touches (2 ^ 32) S sys.cpu.mem after.mem)
    (hcr3 : after.cr3 = sys.cpu.cr3) : SwitchAllowed g sys (.work after) := by
  refine ⟨htouch.mono ?_, hcr3⟩
  refine Set.subset_compl_iff_disjoint_right.mpr ?_
  refine Set.disjoint_union_right.mpr ⟨Set.disjoint_union_right.mpr ⟨hi.layout.stackGlobals _ _ hS, ?_⟩, ?_⟩
  · refine Set.disjoint_left.mpr ?_
    rintro x hx ⟨t, S', hS', hin⟩
    have hblock := hi.layout.stackBlock _ _ _ _ hS hS'
    exact Set.disjoint_left.mp hblock hx (span_add_subset (by decide) hin)
  · refine Set.disjoint_left.mpr ?_
    rintro x hx ⟨t, c, S', hc, hS', hin | hin⟩
    · have hne := hi.parked_ne_current hc
      exact Set.disjoint_left.mp (hi.layout.apart _ _ _ _ hS hS' (Ne.symm hne)) hx hin
    · exact Set.disjoint_left.mp (hi.layout.stackBlock _ _ _ _ hS hS') hx (span_mono (by decide) hin)

theorem trapEntry_allowed {sys : SwitchSys} {S : Set ℕ} {entry err : Word} (hi : SwitchInv g sys) (hv : FrameFits v)
    (hS : sys.stack (current g sys.cpu.mem) = some S)
    (hroom : span (trapEntry g.tss entry v err sys.cpu).esp (trapSize sys.cpu) ⊆ S) :
    SwitchAllowed g sys (.work (trapEntry g.tss entry v err sys.cpu)) := by
  have henters := trapEntry_enters g.tss entry hv err sys.cpu
  exact hi.onStack_allowed hS (henters.touches.mono hroom) henters.cr3

theorem trap_frame {s₀ s₁ s₂ sys : SwitchSys} {S : Set ℕ} {entry err : Word} (hstart : SwitchStart g s₀)
    (hrun : Steps (switchStep g) (SwitchAllowed g) s₀ sys) (hfits : FrameFits v)
    (hS : sys.stack (current g sys.cpu.mem) = some S)
    (hroom : span (trapEntry g.tss entry v err sys.cpu).esp (trapSize sys.cpu) ⊆ S)
    (htrap : switchStep g (.work (trapEntry g.tss entry v err sys.cpu)) sys = some s₁)
    (hmid : HandlerSteps g (current g sys.cpu.mem) (trapBytes sys.cpu s₁.cpu.esp) s₁ s₂) :
    s₁.cpu = trapEntry g.tss entry v err sys.cpu ∧ ∃ useless e, trapCodes v err = [e, BitVec.ofNat 32 v] ∧
      Holds s₂.cpu.mem (s₁.cpu.esp + 4) (trapRegisters sys.cpu useless e (BitVec.ofNat 32 v)) := by
  have hi := hstart.run hrun
  have henters := trapEntry_enters g.tss entry hfits err sys.cpu
  have hallowed := trapEntry_allowed hi hfits hS hroom
  have hi₁ := switchInv_step hi hallowed htrap
  have hcur : current g (trapEntry g.tss entry v err sys.cpu).mem = current g sys.cpu.mem :=
    SwitchInv.current_kept hallowed.1
  rw [switchStep, Option.some.injEq] at htrap
  subst htrap
  obtain ⟨useless, e, hcodes, hframe⟩ := henters.frame
  have hbytes := (trapBytes_subset sys.cpu (trapEntry g.tss entry v err sys.cpu).esp).trans hroom
  have hin : InHandler g (current g sys.cpu.mem) S (trapBytes sys.cpu (trapEntry g.tss entry v err sys.cpu).esp)
      (trapEntry g.tss entry v err sys.cpu).mem { sys with cpu := trapEntry g.tss entry v err sys.cpu } :=
    ⟨hS, .inl hcur, fun _ _ _ => rfl⟩
  obtain ⟨hin₂, -⟩ := hin.run hi₁ hbytes hmid
  have hlen := trapRegisters_length sys.cpu useless e (BitVec.ofNat 32 v)
  have hsize : trapSize sys.cpu - 4 ≤ 2 ^ 32 := by
    unfold trapSize
    split <;> decide
  exact ⟨rfl, useless, e, hcodes, hframe.congr (by omega) fun x hx => hin₂.mem x (by rwa [hlen] at hx) hx.1⟩

theorem trap_goesOn {s₀ s₁ s₂ sys : SwitchSys} {S : Set ℕ} {entry err : Word} (hstart : SwitchStart g s₀)
    (hrun : Steps (switchStep g) (SwitchAllowed g) s₀ sys) (hfits : FrameFits v)
    (hS : sys.stack (current g sys.cpu.mem) = some S)
    (hroom : span (trapEntry g.tss entry v err sys.cpu).esp (trapSize sys.cpu) ⊆ S)
    (htrap : switchStep g (.work (trapEntry g.tss entry v err sys.cpu)) sys = some s₁)
    (hmid : HandlerSteps g (current g sys.cpu.mem) (trapBytes sys.cpu s₁.cpu.esp) s₁ s₂)
    (hesp : s₂.cpu.esp = s₁.cpu.esp) (hss : s₂.cpu.ss = s₁.cpu.ss) (hcs : level s₂.cpu.cs = 0) :
    GoesOn sys.cpu (stubExit v s₂.cpu) := by
  have henters := trapEntry_enters g.tss entry hfits err sys.cpu
  obtain ⟨hcpu, useless, e, -, hframe⟩ := trap_frame hstart hrun hfits hS hroom htrap hmid
  have hleaves := stubExit_leaves v hcs
  rw [hesp] at hleaves
  refine goesOn_of_mirrors (mirrors_of_holds hframe) hleaves fun hinner => ?_
  rw [hcpu] at hss ⊢
  obtain ⟨hstack, hsame⟩ := henters.inner hinner
  exact ⟨hstack, hss.trans hsame⟩

/-- Whatever runs between an interrupt of a thread and the end of its stub (the handler, nested interrupts, switches
to other threads, their creation and their end), the interrupted code goes on with its registers, as long as the
handler leaves its `registers_t` alone and returns to the stub with the stack that it was called with. -/
theorem trap_returns {s₀ s₁ s₂ sys : SwitchSys} {S : Set ℕ} {entry err : Word} (hstart : SwitchStart g s₀)
    (hrun : Steps (switchStep g) (SwitchAllowed g) s₀ sys) (hv : v < 48) (hframed : v ∉ [17, 21, 29, 30])
    (hS : sys.stack (current g sys.cpu.mem) = some S)
    (hroom : span (trapEntry g.tss entry v err sys.cpu).esp (trapSize sys.cpu) ⊆ S)
    (htrap : switchStep g (.work (trapEntry g.tss entry v err sys.cpu)) sys = some s₁)
    (hmid : HandlerSteps g (current g sys.cpu.mem) (trapBytes sys.cpu s₁.cpu.esp) s₁ s₂)
    (hesp : s₂.cpu.esp = s₁.cpu.esp) (hss : s₂.cpu.ss = s₁.cpu.ss) (hcs : level s₂.cpu.cs = 0) :
    GoesOn sys.cpu (stubExit v s₂.cpu) := by
  have hfits := (frameFits_iff hv).mpr hframed
  exact trap_goesOn hstart hrun hfits hS hroom htrap hmid hesp hss hcs

end Return

namespace TwoThreads

attribute [local irreducible] trapEntry switchToThread stubExit

def trapped : SwitchSys := { both with cpu := trapEntry globals.tss 0 33 0 both.cpu }

theorem trap_step : switchStep globals (.work (trapEntry globals.tss 0 33 0 both.cpu)) both = some trapped := rfl

/-- The handler calls `_switch_to_thread` for the second thread. -/
def trapCalls : Cpu := (trapped.cpu.push second).push 0x6000

def trapBack : SwitchSys :=
  { inSecond trapCalls with
    cpu := switchToThread globals (inSecond trapCalls).cpu
    parked := Function.update (parkedAtCall globals (inSecond trapCalls)) (argument (inSecond trapCalls).cpu) none }

def trapEnd : SwitchSys := { trapBack with cpu := { trapBack.cpu with esp := trapBack.cpu.esp + 8 } }

theorem trapped_entered : Enters globals.tss 33 0 both.cpu trapped.cpu :=
  trapEntry_enters globals.tss 0 (show FrameFits 33 from rfl) 0 both.cpu

theorem trapped_esp : trapped.cpu.esp = 0x107C4 ∧ trapped.cpu.ss = kernelDs := trapped_entered.inner rfl

theorem trapSize_both : trapSize both.cpu = 60 := if_pos rfl

theorem trapped_room : span trapped.cpu.esp (trapSize both.cpu) ⊆ firstStack := by
  rw [trapped_esp.1, trapSize_both]
  exact span_subset (by decide)

theorem trapped_allowed : SwitchAllowed globals both (.work trapped.cpu) :=
  trapEntry_allowed (start.run run_both) rfl firstCalls_created.stack trapped_room

theorem trapCalls_esp : trapCalls.esp = 0x107BC := by
  change trapped.cpu.esp - 4 - 4 = _
  rw [trapped_esp.1]
  rfl

theorem trapCalls_touches : Touches (2 ^ 32) (span 0x107BC 8) trapped.cpu.mem trapCalls.mem := by
  change Touches _ _ _ (write (write trapped.cpu.mem (trapped.cpu.esp - 4) second) (trapped.cpu.esp - 4 - 4) 0x6000)
  rw [trapped_esp.1]
  exact touches_write_of_subset ((touches_write _ _ _).mono (span_subset (by decide))) (span_subset (by decide))

theorem trapCalls_onStack : Touches (2 ^ 32) firstStack created.mem trapCalls.mem := by
  have hentry := trapped_entered.touches
  rw [show (if level both.cpu.cs = 0 then 60 else 68) = 60 from rfl, trapped_esp.1] at hentry
  exact (hentry.mono (span_subset (by decide))).trans (trapCalls_touches.mono (span_subset (by decide)))

theorem firstCalls_trapCalls : FirstCalls trapCalls where
  inv := by
    have hi := start.run run_both
    exact hi.work (hi.onStack_allowed firstCalls_created.stack trapCalls_onStack trapped_entered.cr3).1
  current := (read_touches trapCalls_onStack (span_disjoint (by decide) (by decide))).trans current_created
  argument := by
    have hplace : trapCalls.esp + 4 = trapped.cpu.esp - 4 := by
      rw [trapCalls_esp, trapped_esp.1]
      rfl
    rw [argument, hplace]
    change read (write (write trapped.cpu.mem (trapped.cpu.esp - 4) second) (trapped.cpu.esp - 4 - 4) 0x6000) _ = _
    rw [trapped_esp.1]
    exact (read_write_apart (by decide) (by decide)).trans (read_write_self _ _ _)
  back := (read_touches trapCalls_onStack (span_disjoint (by decide) (by decide))).trans firstCalls_created.back
  level := (congrArg level trapped_entered.code).trans level_kernelCs
  ss := trapped_esp.2
  room := by
    rw [trapCalls_esp]
    exact span_subset (by decide)

theorem trapBytes_both : trapBytes both.cpu trapped.cpu.esp = span 0x107C8 56 := by
  rw [trapBytes, trapSize_both, trapped_esp.1]
  rfl

/-- The handler calls, the second thread runs and switches back, and the handler ends. -/
theorem trap_handled : HandlerSteps globals (current globals both.cpu.mem) (trapBytes both.cpu trapped.cpu.esp)
    trapped trapEnd := by
  have hi := switchInv_step (start.run run_both) trapped_allowed trap_step
  have hcur : current globals trapped.cpu.mem = first :=
    (SwitchInv.current_kept trapped_allowed.1).trans current_created
  have hstack : trapped.stack (current globals trapped.cpu.mem) = some firstStack := by
    rw [hcur]
    simp [trapped, both, boot, first, second]
  have hcall : Touches (2 ^ 32) firstStack trapped.cpu.mem trapCalls.mem :=
    trapCalls_touches.mono (span_subset (by decide))
  have hbelow : span 0x107BC 8 ⊆ (span 0x107C8 56)ᶜ :=
    Set.subset_compl_iff_disjoint_right.mpr (span_disjoint (by decide) (by decide))
  rw [trapBytes_both, show current globals both.cpu.mem = first from current_created]
  refine .head ⟨.work trapCalls, ⟨hi.onStack_allowed hstack hcall rfl, fun _ => trapCalls_touches.mono hbelow⟩, rfl⟩
    (.head ⟨.switch, ⟨firstCalls_trapCalls.allowed, fun _ => ?_⟩, rfl⟩
      (.head ⟨.switch, ⟨firstCalls_trapCalls.allowed_second, fun h => ?_⟩, rfl⟩
        (.single ⟨.work trapEnd.cpu, ⟨⟨Touches.refl _ _ _, rfl⟩, fun _ => Touches.refl _ _ _⟩, rfl⟩)))
  · change Disjoint _ (span (trapCalls.esp - 32) 32)
    rw [trapCalls_esp]
    exact span_disjoint (by decide) (by decide)
  · exact absurd (firstCalls_trapCalls.current_second.symm.trans h) (by decide)

theorem trapBack_resumed : (callContext trapCalls).Resumed trapBack.cpu := by
  have h := firstCalls_trapCalls
  exact ((h.inv.switch h.allowed h.parked).2.switch h.allowed_second h.parked_second).1.resumed

/-- The second thread runs before the handler returns. -/
theorem trap_returned : GoesOn both.cpu (stubExit 33 trapEnd.cpu) := by
  have hresumed := trapBack_resumed
  have hesp : trapEnd.cpu.esp = trapped.cpu.esp := by
    change trapBack.cpu.esp + 8 = _
    rw [hresumed.esp]
    change trapCalls.esp + 8 = _
    rw [trapCalls_esp, trapped_esp.1]
    rfl
  have hcs : level trapEnd.cpu.cs = 0 := (congrArg level hresumed.cs).trans firstCalls_trapCalls.level
  exact trap_returns start run_both (by decide) (by decide) firstCalls_created.stack trapped_room trap_step
    trap_handled hesp hresumed.ss hcs

end TwoThreads
end X86Osdev.Proc
