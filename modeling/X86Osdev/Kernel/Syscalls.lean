import X86Osdev.Drivers.Screen
import X86Osdev.Kernel.RunQueue
import X86Osdev.Library.Runs
import X86Osdev.Mem.KernelReads

/-! `syscall_handler` of kernel/syscall.c: what a user program can reach with any register contents. The calls take
memory from the fast zone, for timers and for the page tables of what a program's pointers name. -/

namespace X86Osdev.Kernel
open X86Osdev.Lib X86Osdev.Mem X86Osdev.Proc X86Osdev.Drivers ByteMemory Runs

/-- The registers that the handler reads and writes. -/
structure Regs where
  eax : ℕ
  ebx : ℕ
  ecx : ℕ
  edx : ℕ
  eip : ℕ
deriving DecidableEq

inductive Syscall where
  | exit
  | printf
  | sleepms
  | wait4all
  | wait4
  | random
  | write
  | getpid
  | clone
  | kill
  | other
deriving DecidableEq

/-- The numbers in kernel/syscall.h. -/
def syscallOf : ℕ → Syscall
  | 1 => .exit
  | 2 => .printf
  | 3 => .sleepms
  | 4 => .wait4all
  | 5 => .wait4
  | 6 => .random
  | 7 => .write
  | 8 => .getpid
  | 9 => .clone
  | 10 => .kill
  | _ => .other

/-- The threads, the screen with `stdout`, the seed of `rand`, the positions of `stdout` at which the calls of
`sys_write` have stored, and the directories of the threads, by their addresses, with the zones. -/
structure UserRun where
  k : Machine
  screen : Screen
  next : ℕ
  stores : List ℕ
  paging : Paging

/-- What a call finds apart from its registers: the time stamp counter, the stack from the arguments of
`kprintf` on, and the new `Thread` with what its memory held, if there is memory for it. -/
structure CallEnv where
  now : ℕ
  arg : ℕ
  memory : Option (ℕ × ℕ × ℕ)

/-- The call returns to the program, or it has gone on with `reschedule`. -/
inductive SyscallEnd where
  | returned (regs : Regs)
  | blocked
  | exited

def randMax : ℕ := 0xFFFFFF

def sizeofTimer : ℕ := 16

/-- `rand`, with the new seed. -/
def rand (next : ℕ) : ℕ × ℕ :=
  let next := (next * 1103515245 + 313154) % 2 ^ 64
  (u32 (next / 65536) % randMax, next)

def stringReads (m : Memory) : ℕ → ℕ → List ℕ
  | 0, _ => []
  | n + 1, a => u32 a :: if m (u32 a) = 0 then [] else stringReads m n (a + 1)

/-- The bytes that `kprintf` reads of the format and of the strings that the arguments name. The arguments are on
the stack of the kernel, which every directory maps. -/
def kprintfReads (m : Memory) : ℕ → ℕ → ℕ → List ℕ
  | 0, _, _ => []
  | n + 1, format, arg =>
    if m (u32 format) = 0 then [u32 format]
    else if m (u32 format) ≠ charByte '%' then u32 format :: kprintfReads m n (format + 1) arg
    else
      let next := if m (u32 (format + 1)) = charByte '0' then format + 2 else format + 1
      let digit := m (u32 next)
      let conv := if charByte '0' ≤ digit ∧ digit ≤ charByte '9' then next + 1 else next
      let str := load32 m (u32 arg)
      (List.range' format (conv + 1 - format)).map u32 ++
        (if m (u32 conv) = charByte 's' ∧ str ≠ 0 then stringReads m (2 ^ 32) str else []) ++
        kprintfReads m n (conv + 1) (arg + 4)

namespace UserRun

/-- One turn of `reschedule`; the turns after it are operations of the kernel. -/
def switch (e : SyscallEnd) (now : ℕ) (s : UserRun) : Outcome UserRun SyscallEnd :=
  ((reschedule now s.k).lift fun k => { s with k }).bind fun _ s => .ok e s

/-- One `write_byte_block(stdout, ...)`. -/
def writeByte (b : UInt8) (s : UserRun) : Outcome UserRun ℕ :=
  (s.screen.onStdout (writeByteBlock b)).lift fun screen =>
    { s with screen, stores := s.stores ++ [s.screen.stdout.pos] }

/-- The loop of `sys_write` from `i` on, for `n` bytes. -/
def writeLoop (buf : ℕ) : ℕ → ℕ → UserRun → Outcome UserRun Unit
  | 0, _, s => .ok () s
  | n + 1, i, s =>
    (s.writeByte (s.screen.stdout.mem (u32 (buf + i)))).bind fun _ s => s.writeLoop buf n (i + 1)

/-- What `pageFaultHandler` does for the bytes that a call reads, before the call uses the first of them; the code
maps a page when it comes to it, which is the same unless the kernel stops. At `bad_area` there is `hlt`. -/
def mapPages (addrs : List ℕ) (s : UserRun) : Outcome UserRun Unit :=
  ((touches s.k.currentThread (kernelReads addrs) s.paging).lift fun paging => { s with paging }).bind
    fun done s => if done then .ok () s else .hang s

def sysPrintf (format arg : ℕ) (s : UserRun) : Outcome UserRun Unit :=
  (kprintf format arg s.screen).lift fun screen => { s with screen }

def sysRandom (max : ℕ) (s : UserRun) : Outcome UserRun ℕ :=
  if max = 0 then .panic "Division By Zero" s
  else .ok ((rand s.next).1 % max) { s with next := (rand s.next).2 }

/-- The `fmalloc` of `sleep_ms`. -/
def newTimer (s : UserRun) : Outcome UserRun ℕ :=
  (fmalloc sizeofTimer s.paging.heap).lift fun heap => { s with paging := { s.paging with heap } }

/-- The memory for a thread comes from the buddy allocator. -/
def newThread (memory : Option (ℕ × ℕ × ℕ)) (s : UserRun) : Outcome UserRun ℕ :=
  match memory with
  | none => .panic "No more buddy blocks available\n" s
  | some (t, w, e) => .ok t { s with k := createThread t w e s.k }

end UserRun

/-- `regs->eax = ret` and `regs->eip += 2`. -/
def Regs.return (regs : Regs) (ret : ℕ) : Regs := { regs with eax := ret, eip := u32 (regs.eip + 2) }

/-- `sys_wait4` as far as `reschedule`; `result` is what its caller returns when it returns. -/
def callWait4 (pid now : ℕ) (result : ℕ → Machine → ℕ) (regs : Regs) (s : UserRun) :
    Outcome UserRun SyscallEnd :=
  match sysWait4 pid s.k with
  | (.inl ret, k) => .ok (.returned (regs.return (result ret k))) { s with k }
  | (.inr _, k) => ({ s with k } : UserRun).switch .blocked now

/-- What a call reads through the pointers of the program. -/
def callReads (env : CallEnv) (regs : Regs) (s : UserRun) : List ℕ :=
  match syscallOf regs.eax with
  | .printf => kprintfReads s.screen.stdout.mem (2 ^ 32) regs.ebx env.arg
  | .write => (List.range regs.edx).map fun i => u32 (regs.ecx + i)
  | _ => []

def syscallHandler (env : CallEnv) (regs : Regs) (s : UserRun) : Outcome UserRun SyscallEnd :=
  match syscallOf regs.eax with
  | .exit => ({ s with k := sysExit regs.ebx s.k } : UserRun).switch .exited env.now
  | .printf =>
    (s.mapPages (callReads env regs s)).bind fun _ s =>
      (s.sysPrintf regs.ebx env.arg).bind fun _ s => .ok (.returned (regs.return regs.eax)) s
  | .sleepms =>
    s.newTimer.bind fun _ s => ({ s with k := sleepMs regs.ebx s.k } : UserRun).switch .blocked env.now
  | .wait4all =>
    let s' : UserRun := { s with k := (sysWait4all s.k).2 }
    if (sysWait4all s.k).1 then s'.switch .blocked env.now
    else .ok (.returned (regs.return regs.eax)) s'
  | .wait4 => callWait4 regs.ebx env.now (fun ret _ => ret) regs s
  | .random => (s.sysRandom regs.ebx).bind fun ret s => .ok (.returned (regs.return ret)) s
  | .write =>
    (s.mapPages (callReads env regs s)).bind fun _ s =>
      (s.writeLoop regs.ecx regs.edx 0).bind fun _ s => .ok (.returned (regs.return 0)) s
  | .getpid =>
    (s.newThread env.memory).bind fun t s =>
      callWait4 (s.k.threads t).pid env.now (fun _ k => (k.threads t).exitValue) regs s
  | .clone =>
    (s.newThread env.memory).bind fun t s =>
      .ok (.returned (regs.return (s.k.threads t).pid)) { s with k := wakeUpThread t s.k }
  | .kill =>
    let ret := if (getThread regs.ebx s.k).isSome then regs.ecx else 2 ^ 32 - 1
    .ok (.returned (regs.return ret)) { s with k := sysKill regs.ebx regs.ecx s.k }
  | .other => .ok (.returned (regs.return regs.eax)) s

/-- A system call of the current thread; anything that the kernel does with threads; stores of the programs
and of the kernel to memory; the kernel's printing, which moves the position of `stdout`; what the kernel does with
directories, page tables and zones outside of the calls. -/
inductive UserEvent where
  | call (env : CallEnv) (regs : Regs)
  | op (op : ThreadOp)
  | memory (m : Memory)
  | setCursorOffset (offset : ℤ)
  | setCursorPos (row col : ℤ)
  | print (text : List UInt8)
  | paging (σ : Paging)

def userStep : UserEvent → UserRun → Option UserRun
  | .call env regs, s => (syscallHandler env regs s).toOption.map Prod.snd
  | .op op, s => (exec op s.k).map fun k => { s with k }
  | .memory m, s => some { s with screen := s.screen.withMem m }
  | .setCursorOffset offset, s => some { s with screen := s.screen.setCursorOffset offset }
  | .setCursorPos row col, s => some { s with screen := s.screen.setCursorPos row col }
  | .print text, s => (s.screen.printChars text).toOption.map fun r => { s with screen := r.2 }
  | .paging σ, s => some { s with paging := σ }

/-- The current thread is not reaped, and a new one gets memory of its own. -/
structure Dispatched (env : CallEnv) (s : UserRun) : Prop where
  current : s.k.currentThread ∈ s.k.allocated
  memory : ∀ t w e, env.memory = some (t, w, e) → Refers s.k (.create t w e)

def UserAllowed (s : UserRun) : UserEvent → Prop
  | .call env _ => Dispatched env s
  | .op op => Refers s.k op
  | .paging σ => FastZone σ.heap.fastBuddyNew
  | _ => True

/-- What a call needs to come to an end: the fast zone has a page for each 4 MiB that it reads from and that the
program's directory has no table for. -/
structure CallServed (env : CallEnv) (regs : Regs) (s : UserRun) : Prop where
  random : syscallOf regs.eax = .random → regs.ebx ≠ 0
  printf : syscallOf regs.eax = .printf →
    (kprintfText s.screen.stdout.mem (2 ^ 32) regs.ebx env.arg).isSome
  memory : syscallOf regs.eax = .getpid ∨ syscallOf regs.eax = .clone → env.memory.isSome
  timer : syscallOf regs.eax = .sleepms → 0 < freePages s.paging.heap.fastBuddyNew
  tables : (missingRows (s.paging.threads s.k.currentThread).pageDir (callReads env regs s)).card ≤
    freePages s.paging.heap.fastBuddyNew

/-- What holds in every run, also in one with calls that are not safe. -/
structure UserInv (s : UserRun) : Prop where
  idle : ∃ E, IdleInv True s.k E
  lock : s.screen.stdout.locks .lock = false
  size : s.screen.stdout.size < 2 ^ 32
  pos : s.screen.stdout.pos < 2 ^ 32
  fast : FastZone s.paging.heap.fastBuddyNew

section Calls
variable {s s' : UserRun} {env : CallEnv} {regs : Regs} {E : Queue → List ℕ} {k k' : Machine}

theorem UserInv.withThreads (h : UserInv s) (hk : ∃ E, IdleInv True k E) : UserInv { s with k } :=
  ⟨hk, h.lock, h.size, h.pos, h.fast⟩

theorem UserInv.withPaging {paging : Paging} (h : UserInv s) (hfast : FastZone paging.heap.fastBuddyNew) :
    UserInv { s with paging } :=
  ⟨h.idle, h.lock, h.size, h.pos, hfast⟩

theorem UserInv.withScreen {screen : Screen} (h : UserInv s) (hp : Printed s.screen screen) :
    UserInv { s with screen } :=
  ⟨h.idle, (congrFun hp.locks _).trans h.lock, hp.size.trans_lt h.size, hp.pos h.pos, h.fast⟩

theorem UserInv.exec (h : UserInv s) (op : ThreadOp) (hr : Refers s.k op)
    (he : Kernel.exec op s.k = some k') : ∃ E, IdleInv True k' E := by
  obtain ⟨E, hi⟩ := h.idle
  obtain ⟨E', hi', -⟩ := hi.exec hr he
  exact ⟨E', hi'⟩

theorem UserInv.switch (h : UserInv s) (e : SyscallEnd) (now : ℕ) :
    ∃ s', s.switch e now = .ok e s' ∧ UserInv s' ∧ s'.stores = s.stores := by
  obtain ⟨E, hi⟩ := h.idle
  obtain ⟨b, k', hok, hk'⟩ := hi.turn now
  refine ⟨{ s with k := k' }, ?_, h.withThreads hk', rfl⟩
  rw [UserRun.switch, hok]
  rfl

def Answered (regs : Regs) (s : UserRun) (new : List ℕ) (o : Outcome UserRun SyscallEnd) : Prop :=
  ∃ e s', o = .ok e s' ∧ (∀ regs', e = .returned regs' → regs'.eip = u32 (regs.eip + 2)) ∧
    UserInv s' ∧ s'.stores = s.stores ++ new

theorem Answered.return (h : UserInv s') (ret : ℕ) {new : List ℕ} (hnew : s'.stores = s.stores ++ new) :
    Answered regs s new (.ok (.returned (regs.return ret)) s') :=
  ⟨_, s', rfl, fun _ he => SyscallEnd.returned.inj he ▸ rfl, h, hnew⟩

theorem Answered.switch (h : UserInv s') (e : SyscallEnd) (he : ∀ regs', e ≠ .returned regs') (now : ℕ)
    (hstores : s'.stores = s.stores) : Answered regs s [] (s'.switch e now) := by
  obtain ⟨s'', hs'', hi'', hstores''⟩ := h.switch e now
  exact ⟨e, s'', hs'', fun regs' heq => (he regs' heq).elim, hi'',
    (hstores''.trans hstores).trans (List.append_nil _).symm⟩

theorem UserInv.callWait4 (h : UserInv s') (hcur : s'.k.currentThread ∈ s'.k.allocated)
    (hstores : s'.stores = s.stores) (pid now : ℕ) (result : ℕ → Machine → ℕ) :
    Answered regs s [] (callWait4 pid now result regs s') := by
  have hk : ∃ E, IdleInv True (sysWait4 pid s'.k).2 E := h.exec (.wait4 pid) hcur rfl
  unfold Kernel.callWait4
  generalize sysWait4 pid s'.k = r at hk
  obtain ⟨ret | p, k⟩ := r
  · exact .return (h.withThreads hk) _ (hstores.trans (List.append_nil _).symm)
  · exact .switch (h.withThreads hk) .blocked (fun _ he => nomatch he) now hstores

def storedAt (pos n : ℕ) : List ℕ := (List.range n).map fun i => u32 (pos + i)

theorem UserInv.writeByte (h : UserInv s) (b : UInt8) :
    ∃ s', s.writeByte b = .ok 1 s' ∧ UserInv s' ∧
      s'.screen.stdout.pos = u32 (s.screen.stdout.pos + 1) ∧
      s'.screen.stdout.size = s.screen.stdout.size ∧ s'.stores = s.stores ++ [s.screen.stdout.pos] := by
  have hpos : u32 (s.screen.stdout.pos + 1) < 2 ^ 32 := Nat.mod_lt _ (by decide)
  have hwrite : writeByteBlock b s.screen.stdout = .ok 1 ({ s.screen.stdout with
      locks := Function.update s.screen.stdout.locks .lock true
      mem := storeByte (2 ^ 32) s.screen.stdout.mem (s.screen.stdout.buffer + s.screen.stdout.pos) b
      pos := u32 (s.screen.stdout.pos + 1) }.unlock .lock) := by
    rw [writeByteBlock, getLock_ok h.lock, Outcome.bind_ok]
  rw [UserRun.writeByte, Screen.onStdout, hwrite]
  exact ⟨_, rfl, ⟨h.idle, unlock_self _ .lock, h.size, hpos, h.fast⟩, rfl, rfl, rfl⟩

theorem UserInv.writeLoop (h : UserInv s) (buf n i : ℕ) :
    ∃ s', s.writeLoop buf n i = .ok () s' ∧ UserInv s' ∧
      s'.stores = s.stores ++ storedAt s.screen.stdout.pos n := by
  induction n generalizing s i with
  | zero => exact ⟨s, rfl, h, (List.append_nil _).symm⟩
  | succ n ih =>
    obtain ⟨s₁, hone, hi₁, hpos, hsize, hstores⟩ :=
      h.writeByte (s.screen.stdout.mem (u32 (buf + i)))
    obtain ⟨s₂, hrest, hi₂, hstores₂⟩ := ih hi₁ (i + 1)
    refine ⟨s₂, ?_, hi₂, ?_⟩
    · rw [UserRun.writeLoop, hone, Outcome.bind_ok, hrest]
    · rw [hstores₂, hstores, List.append_assoc, hpos]
      refine congrArg _ ?_
      have hfirst : u32 (s.screen.stdout.pos + 0) = s.screen.stdout.pos := Nat.mod_eq_of_lt h.pos
      rw [storedAt, storedAt, List.range_succ_eq_map, List.map_cons, List.map_map, hfirst,
        List.singleton_append]
      refine congrArg _ (List.map_congr_left fun j _ => ?_)
      unfold u32
      rw [Function.comp_apply, Nat.mod_add_mod, Nat.add_assoc, Nat.add_comm 1 j]

theorem UserInv.newThread (h : UserInv s) (hd : Dispatched env s) {t w e : ℕ}
    (hm : env.memory = some (t, w, e)) :
    s.newThread env.memory = .ok t { s with k := createThread t w e s.k } ∧
      UserInv { s with k := createThread t w e s.k } ∧
      (createThread t w e s.k).currentThread ∈ (createThread t w e s.k).allocated ∧
      t ∈ (createThread t w e s.k).allocated := by
  obtain ⟨-, halloc, -, hcur, -, -⟩ := createThread_fixed t w e s.k
  refine ⟨?_, h.withThreads (h.exec (.create t w e) (hd.memory t w e hm) rfl), ?_, ?_⟩
  · rw [hm]
    rfl
  · rw [hcur, halloc]
    exact List.mem_cons_of_mem _ hd.current
  · rw [halloc]
    exact List.mem_cons_self

/-- The pages that a call reads from are mapped, or the kernel stops. -/
theorem UserInv.mapPages (h : UserInv s) (addrs : List ℕ) :
    ((missingRows (s.paging.threads s.k.currentThread).pageDir addrs).card ≤ freePages s.paging.heap.fastBuddyNew →
      ∃ paging, s.mapPages addrs = .ok () { s with paging } ∧ UserInv { s with paging }) ∧
    (freePages s.paging.heap.fastBuddyNew < (missingRows (s.paging.threads s.k.currentThread).pageDir addrs).card →
      ∃ s', s.mapPages addrs = .panic outOfMemory s') := by
  obtain ⟨hall, hout⟩ := touches_kernelReads s.k.currentThread addrs h.fast
  constructor
  · intro hle
    obtain ⟨paging, hok, hfast⟩ := hall hle
    refine ⟨paging, ?_, h.withPaging hfast⟩
    rw [UserRun.mapPages, hok]
    rfl
  · intro hlt
    obtain ⟨paging, hpanic⟩ := hout hlt
    refine ⟨{ s with paging }, ?_⟩
    rw [UserRun.mapPages, hpanic]
    rfl

theorem UserInv.newTimer (h : UserInv s) :
    (∃ t paging, s.newTimer = .ok t { s with paging } ∧ UserInv { s with paging } ∧
        0 < freePages s.paging.heap.fastBuddyNew) ∨
      s.newTimer = .panic outOfMemory s ∧ freePages s.paging.heap.fastBuddyNew = 0 := by
  rcases h.fast.fmalloc (show calcPageOrder sizeofTimer = 0 by decide) with
    ⟨p, heap, hok, -, hfast, hfree⟩ | ⟨hpanic, hfree⟩
  · have hok : s.newTimer = .ok (framePtr p) { s with paging := { s.paging with heap } } := by
      rw [UserRun.newTimer, hok]
      rfl
    exact .inl ⟨_, _, hok, h.withPaging hfast, hfree ▸ Nat.succ_pos _⟩
  · refine .inr ⟨?_, hfree⟩
    rw [UserRun.newTimer, hpanic]
    rfl

def callStores (regs : Regs) (s : UserRun) : List ℕ :=
  if syscallOf regs.eax = .write then storedAt s.screen.stdout.pos regs.edx else []

theorem UserInv.answered (h : UserInv s) (hd : Dispatched env s) (hs : CallServed env regs s) :
    Answered regs s (callStores regs s) (syscallHandler env regs s) := by
  unfold syscallHandler callStores
  generalize hcall : syscallOf regs.eax = call
  cases call
  case exit =>
    exact .switch (h.withThreads (h.exec (.exit regs.ebx) hd.current rfl)) .exited
      (fun _ he => nomatch he) _ rfl
  case printf =>
    -- The pages of format and strings are mapped first, then the text goes to the screen.
    obtain ⟨text, htext⟩ := Option.isSome_iff_exists.mp (hs.printf hcall)
    obtain ⟨paging, hmap, hi'⟩ := (h.mapPages _).1 hs.tables
    obtain ⟨screen, hprint, hprinted⟩ := printChars_ok text s.screen
    have hok : ({ s with paging } : UserRun).sysPrintf regs.ebx env.arg = .ok () { s with paging, screen } := by
      rw [UserRun.sysPrintf, kprintf, htext]
      exact congrArg _ hprint
    dsimp only
    rw [hmap, Outcome.bind_ok, hok]
    exact .return (hi'.withScreen hprinted) _ (List.append_nil _).symm
  case sleepms =>
    rcases h.newTimer with ⟨t, paging, hok, hi', -⟩ | ⟨-, hnone⟩
    · dsimp only
      rw [hok, Outcome.bind_ok]
      exact .switch (hi'.withThreads (h.exec (.sleepMs regs.ebx) hd.current rfl)) .blocked
        (fun _ he => nomatch he) _ rfl
    · exact absurd hnone (hs.timer hcall).ne'
  case wait4all =>
    have hk := h.withThreads (h.exec .wait4all hd.current rfl)
    by_cases hwait : (sysWait4all s.k).1 = true
    · simp only [hwait]
      exact .switch hk .blocked (fun _ he => nomatch he) _ rfl
    · simp only [hwait]
      exact .return hk _ (List.append_nil _).symm
  case wait4 => exact h.callWait4 hd.current rfl _ _ _
  case random =>
    have hok : ∃ ret next, s.sysRandom regs.ebx = .ok ret { s with next } :=
      ⟨_, _, if_neg (hs.random hcall)⟩
    obtain ⟨ret, next, hok⟩ := hok
    rw [hok]
    have hi' : UserInv { s with next } := ⟨h.idle, h.lock, h.size, h.pos, h.fast⟩
    exact .return hi' _ (List.append_nil _).symm
  case write =>
    obtain ⟨paging, hmap, hi'⟩ := (h.mapPages _).1 hs.tables
    obtain ⟨s', hloop, hi', hstores⟩ := hi'.writeLoop regs.ecx regs.edx 0
    dsimp only
    rw [hmap, Outcome.bind_ok, hloop]
    exact .return hi' _ hstores
  case getpid =>
    obtain ⟨⟨t, w, e⟩, hm⟩ := Option.isSome_iff_exists.mp (hs.memory (.inl hcall))
    obtain ⟨hok, hi', hcur, -⟩ := h.newThread hd hm
    rw [hok]
    exact hi'.callWait4 hcur rfl _ _ _
  case clone =>
    obtain ⟨⟨t, w, e⟩, hm⟩ := Option.isSome_iff_exists.mp (hs.memory (.inr hcall))
    obtain ⟨hok, hi', -, ht⟩ := h.newThread hd hm
    rw [hok]
    exact .return (hi'.withThreads (hi'.exec (.wakeUp t) ht rfl)) _ (List.append_nil _).symm
  case kill =>
    exact .return (h.withThreads (h.exec (.sysKill regs.ebx regs.ecx) trivial rfl)) _
      (List.append_nil _).symm
  case other => exact .return h _ (List.append_nil _).symm

theorem callReads_eq_nil (hp : syscallOf regs.eax ≠ .printf) (hw : syscallOf regs.eax ≠ .write) :
    callReads env regs s = [] := by
  unfold callReads
  split
  · next hcall => exact absurd hcall hp
  · next hcall => exact absurd hcall hw
  · rfl

theorem UserInv.tables_of_ok {e : SyscallEnd} (h : UserInv s) (hok : syscallHandler env regs s = .ok e s') :
    (missingRows (s.paging.threads s.k.currentThread).pageDir (callReads env regs s)).card ≤
      freePages s.paging.heap.fastBuddyNew := by
  by_contra hnot
  obtain ⟨s₁, hpanic⟩ := (h.mapPages _).2 (Nat.lt_of_not_le hnot)
  unfold syscallHandler at hok
  by_cases hp : syscallOf regs.eax = .printf
  · rw [hp] at hok
    dsimp only at hok
    rw [hpanic] at hok
    cases hok
  · by_cases hw : syscallOf regs.eax = .write
    · rw [hw] at hok
      dsimp only at hok
      rw [hpanic] at hok
      cases hok
    · rw [callReads_eq_nil hp hw] at hnot
      exact hnot (Nat.zero_le _)

/-- Division by zero, no memory or a string without an end: the call does not come to an end. -/
theorem UserInv.served_of_ok {e : SyscallEnd} (h : UserInv s) (hok : syscallHandler env regs s = .ok e s') :
    CallServed env regs s := by
  have htables := h.tables_of_ok hok
  unfold syscallHandler at hok
  refine ⟨?_, ?_, ?_, ?_, htables⟩
  · intro hcall hzero
    rw [hcall, hzero] at hok
    cases hok
  · intro hcall
    rw [hcall] at hok
    by_contra hnone
    rw [Option.not_isSome_iff_eq_none] at hnone
    obtain ⟨paging, hmap, -⟩ := (h.mapPages _).1 htables
    dsimp only at hok
    rw [hmap, Outcome.bind_ok] at hok
    simp only [UserRun.sysPrintf, kprintf, hnone, Outcome.lift_hang, Outcome.bind_hang] at hok
    cases hok
  · rintro (hcall | hcall)
    all_goals
      rw [hcall] at hok
      by_contra hnone
      rw [Option.not_isSome_iff_eq_none] at hnone
      rw [hnone] at hok
      cases hok
  · intro hcall
    rcases h.newTimer with ⟨-, -, -, -, hfree⟩ | ⟨hpanic, -⟩
    · exact hfree
    · rw [hcall] at hok
      dsimp only at hok
      rw [hpanic] at hok
      cases hok

theorem UserInv.call {e : SyscallEnd} (h : UserInv s) (hd : Dispatched env s)
    (hok : syscallHandler env regs s = .ok e s') : UserInv s' := by
  obtain ⟨e', s'', hok', -, hi', -⟩ := h.answered hd (h.served_of_ok hok)
  obtain ⟨-, rfl⟩ := Outcome.ok.inj (hok.symm.trans hok')
  exact hi'

theorem UserInv.step {ev : UserEvent} (h : UserInv s) (hok : UserAllowed s ev)
    (hs : userStep ev s = some s') : UserInv s' := by
  cases ev with
  | call env regs =>
    obtain ⟨⟨e, s''⟩, hcall, rfl⟩ := Option.map_eq_some_iff.mp hs
    exact h.call hok (Outcome.toOption_eq_some.mp hcall)
  | op op =>
    obtain ⟨k', he, rfl⟩ := Option.map_eq_some_iff.mp hs
    exact h.withThreads (h.exec _ hok he)
  | memory m =>
    obtain rfl := Option.some.inj hs
    exact h.withScreen (printed_withMem m s.screen)
  | setCursorOffset offset =>
    obtain rfl := Option.some.inj hs
    exact h.withScreen (printed_setCursorOffset offset s.screen)
  | setCursorPos row col =>
    obtain rfl := Option.some.inj hs
    exact h.withScreen (printed_setCursorPos row col s.screen)
  | print text =>
    obtain ⟨⟨u, screen⟩, hprint, rfl⟩ := Option.map_eq_some_iff.mp hs
    obtain ⟨screen', hprint', hp⟩ := printChars_ok text s.screen
    obtain ⟨-, rfl⟩ := Outcome.ok.inj ((Outcome.toOption_eq_some.mp hprint).symm.trans hprint')
    exact h.withScreen hp
  | paging σ =>
    obtain rfl := Option.some.inj hs
    exact h.withPaging hok

end Calls

/-- The idle thread is awake, and `stdout` is the device that the kernel made for the screen. -/
structure UserStart (totalPages : ℕ) (s : UserRun) : Prop where
  threads : IdleAwake s.k
  stdout : MadeDevice totalPages .block 2 s.screen.stdout
  fast : FastZone s.paging.heap.fastBuddyNew

section SystemCalls
variable {totalPages : ℕ} {start s : UserRun} {env : CallEnv} {regs : Regs}

theorem UserStart.size_eq (h : UserStart totalPages s) : s.screen.stdout.size = 16384 :=
  h.stdout.new.size_eq

theorem UserStart.inv (h : UserStart totalPages s) : UserInv s :=
  ⟨h.threads.inv, h.stdout.new.lock, h.size_eq.trans_lt (by decide), h.stdout.pos_lt, h.fast⟩

end SystemCalls

def userStarted (d : Device) : UserRun :=
  ⟨wakeUpThread 0x2000 started, ⟨d, 0, 0x0F⟩, 1, [], freshPaging bootHeap⟩

end X86Osdev.Kernel
