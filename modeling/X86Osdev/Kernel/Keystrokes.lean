import X86Osdev.Kernel.WorkQueue

/-! What the worker writes to `stdin`: the translations of the scancodes, with the keyboard's interrupts between
any two of its statements. -/

namespace X86Osdev.Kernel
open X86Osdev.Mem X86Osdev.Proc X86Osdev.Drivers Runs

/-- The scancodes that `keyboard_callback` does not ignore. -/
def WorkEvent.accepted : WorkEvent → List UInt8
  | .key scancode => if scancode > scMax then [] else [scancode]
  | _ => []

/-- What was written is the beginning of what was typed, and all of it when nothing is available. -/
def KeysDelivered (s : WorkRun) (typed : List UInt8) : Prop :=
  s.stdin <+: typed.map translate ∧ (s.keyboard.keyBufAvail = 0 → s.stdin = typed.map translate)

/-- A scancode that is not ignored is not 0, does not arrive between the test that finds `key_buf_avail` at 0
and the clearing of the buffer, and finds room in it for itself and a NUL: fewer than 1023 scancodes, read or not. -/
def KeyInTime (s : WorkRun) : WorkEvent → Prop
  | .key scancode => scancode ≤ scMax → scancode ≠ 0 ∧ s.pc ≠ .clear ∧
      ∀ n, strlen s.keyboard.mem s.keyboard.keyboardBuffer = some n → n < 1023
  | _ => True

/-- The worker starts with a buffer of zeros. -/
structure KeysStart (s : WorkRun) : Prop where
  start : 0 < s.keyboard.keyboardBuffer
  fits : s.keyboard.keyboardBuffer + 1024 < 2 ^ 32
  zero : ∀ i < 1024, s.keyboard.mem (s.keyboard.keyboardBuffer + i) = 0
  avail : s.keyboard.keyBufAvail = 0
  last : s.keyboard.keyBufLast = 0
  stdin : s.stdin = []
  pc : s.pc = .netWork

def WorkPc.inHand : WorkPc → List UInt8
  | .translate scancode => [Drivers.translate scancode]
  | .write c => [c]
  | _ => []

def WorkPc.counted : WorkPc → ℕ
  | .translate _ | .write _ | .decrement => 1
  | _ => 0

structure KeysInv (s : WorkRun) (typed codes : List UInt8) (taken : ℕ) : Prop where
  buffer : s.keyboard.Typed codes
  taken_le : taken ≤ codes.length
  last : s.pc ≠ .reset → s.keyboard.keyBufLast = taken
  reset : s.pc = .reset → taken = 0
  avail : s.keyboard.keyBufAvail = codes.length - taken + s.pc.counted
  read : s.pc = .read → taken < codes.length
  clear : s.pc = .clear → taken = codes.length
  written : typed.map translate = s.stdin ++ s.pc.inHand ++ (codes.drop taken).map translate

section Keys
variable {s s' : WorkRun} {typed codes : List UInt8} {taken : ℕ} {ev : WorkEvent} {scancode : UInt8}

theorem KeysInv.delivered (h : KeysInv s typed codes taken) : KeysDelivered s typed := by
  refine ⟨⟨_, ((List.append_assoc ..).symm.trans h.written.symm)⟩, fun hzero => ?_⟩
  have havail := h.avail
  have htaken := h.taken_le
  have hcounted : s.pc.counted = 0 := by omega
  have hhand : s.pc.inHand = [] := by
    cases hpc : s.pc <;> first | rfl | (rw [hpc] at hcounted; cases hcounted)
  have hrest : codes.drop taken = [] := List.drop_eq_nil_of_le (by omega)
  rw [h.written, hhand, hrest, List.map_nil, List.append_nil, List.append_nil]

theorem KeysInv.key (h : KeysInv s typed codes taken) (hin : KeyInTime s (.key scancode))
    (hs : s.keyboardCallback scancode = some s') :
    ∃ codes' taken', KeysInv s' (typed ++ WorkEvent.accepted (.key scancode)) codes' taken' := by
  unfold WorkRun.keyboardCallback at hs
  by_cases hmax : scancode > scMax
  · rw [if_pos hmax] at hs
    obtain rfl := Option.some.inj hs
    refine ⟨codes, taken, ?_⟩
    rw [WorkEvent.accepted, if_pos hmax, List.append_nil]
    exact h
  · obtain ⟨hne, hclear, hroom⟩ := hin (UInt8.not_lt.mp hmax)
    have htaken := h.taken_le
    have hlen : (codes ++ [scancode]).length = codes.length + 1 := List.length_append
    obtain ⟨mem, haccept, hbuffer⟩ := h.buffer.accept (hroom _ h.buffer.strlen) hne
    rw [if_neg hmax, haccept] at hs
    obtain rfl := Option.some.inj hs
    have hlt := hroom _ h.buffer.strlen
    have hcounted : s.pc.counted ≤ 1 := by
      cases s.pc <;> exact Nat.le_of_ble_eq_true rfl
    have havail : u32 (s.keyboard.keyBufAvail + 1) = s.keyboard.keyBufAvail + 1 := by
      rw [h.avail]
      exact Nat.mod_eq_of_lt (by omega)
    refine ⟨codes ++ [scancode], taken, hbuffer, by omega, h.last, h.reset, ?_, fun hp => ?_,
      fun hp => absurd hp hclear, ?_⟩
    · show u32 (s.keyboard.keyBufAvail + 1) = (codes ++ [scancode]).length - taken + s.pc.counted
      rw [havail, h.avail, hlen]
      omega
    · have := h.read hp
      omega
    · rw [WorkEvent.accepted, if_neg hmax, List.map_append, h.written, List.drop_append_of_le_length htaken,
        List.map_append, List.append_assoc, List.append_assoc]

theorem KeysInv.goTo (h : KeysInv s typed codes taken) (hkeyboard : s'.keyboard = s.keyboard)
    (hstdin : s'.stdin = s.stdin) (hreset : s.pc ≠ .reset ∧ s'.pc ≠ .reset)
    (hhand : s'.pc.inHand = s.pc.inHand) (hcounted : s'.pc.counted = s.pc.counted)
    (hread : s'.pc = .read → taken < codes.length) (hclear : s'.pc = .clear → taken = codes.length) :
    KeysInv s' typed codes taken := by
  refine ⟨hkeyboard ▸ h.buffer, h.taken_le, fun _ => ?_, fun hp => absurd hp hreset.2, ?_, hread, hclear, ?_⟩
  · rw [hkeyboard, h.last hreset.1]
  · rw [hkeyboard, h.avail, hcounted]
  · rw [h.written, hstdin, hhand]

def WorkPc.aside : WorkPc → Bool
  | .read | .translate _ | .write _ | .decrement | .clear | .reset => false
  | _ => true

theorem WorkPc.aside_spec {p : WorkPc} (h : p.aside = true) :
    p ≠ .reset ∧ p ≠ .read ∧ p ≠ .clear ∧ p.inHand = [] ∧ p.counted = 0 := by
  cases p with
  | read | translate c | write c | decrement | clear | reset => cases h
  | _ => exact ⟨nofun, nofun, nofun, rfl, rfl⟩

theorem KeysInv.pass (h : KeysInv s typed codes taken) (hkeyboard : s'.keyboard = s.keyboard)
    (hstdin : s'.stdin = s.stdin) (hpc : s.pc.aside = true) (hpc' : s'.pc.aside = true) :
    KeysInv s' typed codes taken := by
  obtain ⟨hreset, -, -, hhand, hcounted⟩ := WorkPc.aside_spec hpc
  obtain ⟨hreset', hread', hclear', hhand', hcounted'⟩ := WorkPc.aside_spec hpc'
  exact h.goTo hkeyboard hstdin ⟨hreset, hreset'⟩ (hhand'.trans hhand.symm) (hcounted'.trans hcounted.symm)
    (fun hp => absurd hp hread') (fun hp => absurd hp hclear')

theorem KeysInv.run (h : KeysInv s typed codes taken) :
    ∃ codes' taken', KeysInv s.run typed codes' taken' := by
  have htaken := h.taken_le
  have hlen := h.buffer.length_lt
  have havail := h.avail
  have hwritten := h.written
  unfold WorkRun.run
  cases hpc : s.pc with
  | netWork =>
    have haside : s.pc.aside = true := by rw [hpc]; rfl
    refine ⟨codes, taken, ?_⟩
    dsimp only
    split
    · exact h.pass rfl rfl haside rfl
    · exact h.pass rfl rfl haside rfl
  | remove p1 | free | sleep | away =>
    have haside : s.pc.aside = true := by rw [hpc]; rfl
    exact ⟨codes, taken, h.pass rfl rfl haside rfl⟩
  | translate scancode =>
    have hreset : s.pc ≠ .reset := by rw [hpc]; exact fun hp => (nomatch hp)
    exact ⟨codes, taken, h.goTo rfl rfl ⟨hreset, fun hp => (nomatch hp)⟩ (by rw [hpc]; rfl) (by rw [hpc]; rfl)
      (fun hp => (nomatch hp)) (fun hp => (nomatch hp))⟩
  | keys =>
    have hreset : s.pc ≠ .reset := by rw [hpc]; exact fun hp => (nomatch hp)
    rw [hpc] at havail
    change s.keyboard.keyBufAvail = codes.length - taken + 0 at havail
    refine ⟨codes, taken, ?_⟩
    dsimp only
    split
    · next hpos =>
      exact h.goTo rfl rfl ⟨hreset, fun hp => (nomatch hp)⟩ (by rw [hpc]; rfl) (by rw [hpc]; rfl)
        (fun _ => by omega) (fun hp => (nomatch hp))
    · exact h.pass rfl rfl (by rw [hpc]; rfl) rfl
  | test =>
    have hreset : s.pc ≠ .reset := by rw [hpc]; exact fun hp => (nomatch hp)
    rw [hpc] at havail
    change s.keyboard.keyBufAvail = codes.length - taken + 0 at havail
    refine ⟨codes, taken, ?_⟩
    dsimp only
    split
    · next hzero =>
      exact h.goTo rfl rfl ⟨hreset, fun hp => (nomatch hp)⟩ (by rw [hpc]; rfl) (by rw [hpc]; rfl)
        (fun hp => (nomatch hp)) (fun _ => by omega)
    · exact h.pass rfl rfl (by rw [hpc]; rfl) rfl
  | read =>
    -- one more scancode is taken, but until `decrement` the counter still includes it
    have hlt := h.read hpc
    have hlast : s.keyboard.keyBufLast = taken := h.last (by rw [hpc]; exact fun hp => (nomatch hp))
    rw [hpc] at havail hwritten
    change s.keyboard.keyBufAvail = codes.length - taken + 0 at havail
    rw [h.buffer.read hlast hlt]
    have hbuffer : ({ s.keyboard with keyBufLast := taken + 1 } : Keyboard).Typed codes :=
      ⟨h.buffer.start, h.buffer.fits, h.buffer.string, h.buffer.stop, h.buffer.length_lt⟩
    refine ⟨codes, taken + 1, hbuffer, hlt, fun _ => rfl, fun hp => (nomatch hp), ?_, fun hp => (nomatch hp),
      fun hp => (nomatch hp), ?_⟩
    · show s.keyboard.keyBufAvail = codes.length - (taken + 1) + 1
      omega
    · rw [hwritten, List.drop_eq_getElem_cons hlt, List.map_cons]
      show s.stdin ++ [] ++ _ = s.stdin ++ [Drivers.translate codes[taken]] ++ _
      rw [List.append_nil, List.append_assoc, List.singleton_append]
  | write c =>
    have hlast : s.keyboard.keyBufLast = taken := h.last (by rw [hpc]; exact fun hp => (nomatch hp))
    rw [hpc] at havail hwritten
    refine ⟨codes, taken, h.buffer, htaken, fun _ => hlast, fun hp => (nomatch hp), havail,
      fun hp => (nomatch hp), fun hp => (nomatch hp), ?_⟩
    rw [hwritten]
    show _ = s.stdin ++ [c] ++ [] ++ _
    rw [List.append_nil]
    rfl
  | decrement =>
    have hlast : s.keyboard.keyBufLast = taken := h.last (by rw [hpc]; exact fun hp => (nomatch hp))
    rw [hpc] at havail hwritten
    change s.keyboard.keyBufAvail = codes.length - taken + 1 at havail
    have hdec : u32 (s.keyboard.keyBufAvail + (2 ^ 32 - 1)) = codes.length - taken := by
      unfold u32
      omega
    have hkeyboard : s.keyboard.decrement = { s.keyboard with keyBufAvail := codes.length - taken } := by
      rw [Keyboard.decrement, hdec]
    rw [hkeyboard]
    exact ⟨codes, taken, ⟨h.buffer.start, h.buffer.fits, h.buffer.string, h.buffer.stop, h.buffer.length_lt⟩,
      htaken, fun _ => hlast, fun hp => (nomatch hp), rfl, fun hp => (nomatch hp), fun hp => (nomatch hp),
      hwritten⟩
  | clear =>
    -- every scancode has been taken, so clearing the buffer loses none
    have hall := h.clear hpc
    rw [hpc] at havail hwritten
    change s.keyboard.keyBufAvail = codes.length - taken + 0 at havail
    rw [hall, List.drop_length] at hwritten
    refine ⟨[], 0, h.buffer.clear, Nat.zero_le _, fun hp => absurd rfl hp, fun _ => rfl, ?_,
      fun hp => (nomatch hp), fun hp => (nomatch hp), hwritten⟩
    show s.keyboard.clear.keyBufAvail = 0
    rw [Keyboard.clear_keyBufAvail]
    omega
  | reset =>
    have hzero := h.reset hpc
    subst hzero
    rw [hpc] at havail hwritten
    exact ⟨codes, 0, ⟨h.buffer.start, h.buffer.fits, h.buffer.string, h.buffer.stop, h.buffer.length_lt⟩,
      htaken, fun _ => rfl, fun hp => (nomatch hp), havail, fun hp => (nomatch hp), fun hp => (nomatch hp),
      hwritten⟩
  | reschedule => exact ⟨codes, taken, h⟩

theorem KeysInv.step (h : KeysInv s typed codes taken) (hin : KeyInTime s ev) (hs : workStep ev s = some s') :
    ∃ codes' taken', KeysInv s' (typed ++ ev.accepted) codes' taken' := by
  cases ev with
  | run =>
    obtain ⟨-, hs⟩ := Option.ite_none_right_eq_some.mp hs
    obtain rfl := Option.some.inj hs
    exact (List.append_nil typed).symm ▸ h.run
  | reschedule now =>
    obtain ⟨⟨-, hpc⟩, hs⟩ := Option.ite_none_right_eq_some.mp hs
    obtain ⟨k, -, rfl⟩ := Option.map_eq_some_iff.mp hs
    have hlog : typed ++ [] = typed := List.append_nil typed
    rw [← hlog] at h
    exact ⟨codes, taken, h.pass rfl rfl (by rw [hpc]; rfl) rfl⟩
  | key scancode => exact h.key hin hs
  | receive work works =>
    obtain rfl := Option.some.inj hs
    have hlog : typed ++ [] = typed := List.append_nil typed
    rw [← hlog] at h
    exact ⟨codes, taken, h.buffer, h.taken_le, h.last, h.reset, h.avail, h.read, h.clear, h.written⟩
  | other op =>
    obtain ⟨k, -, rfl⟩ := Option.map_eq_some_iff.mp hs
    have hlog : typed ++ [] = typed := List.append_nil typed
    rw [← hlog] at h
    exact ⟨codes, taken, h.buffer, h.taken_le, h.last, h.reset, h.avail, h.read, h.clear, h.written⟩

theorem KeysStart.inv (h : KeysStart s) : KeysInv s [] [] 0 := by
  have hpc := h.pc
  have hzero := h.zero 0 (by decide)
  refine ⟨⟨h.start, h.fits, ⟨fun i hi => absurd hi (Nat.not_lt_zero i), fun b hb => absurd hb List.not_mem_nil⟩,
    hzero, by decide⟩, le_rfl, fun _ => h.last, fun _ => rfl, ?_, fun hp => ?_, fun _ => rfl, ?_⟩
  · rw [h.avail, hpc]
    rfl
  · rw [hpc] at hp
    cases hp
  · rw [h.stdin, hpc]
    rfl

/-- In a run where the scancodes arrive in time they are delivered in order. -/
theorem keystrokes_delivered {start s : WorkRun} {typed : List UInt8} (hstart : KeysStart start)
    (hrun : Steps (logged workStep WorkEvent.accepted) (fun p ev => KeyInTime p.1 ev) (start, []) (s, typed)) :
    KeysDelivered s typed := by
  have hinv : ∃ codes taken, KeysInv s typed codes taken := by
    refine Steps.invariant (I := fun p => ∃ codes taken, KeysInv p.1 p.2 codes taken)
      (fun p ev p' hi hok hs => ?_) hrun ⟨[], 0, hstart.inv⟩
    obtain ⟨codes, taken, hi⟩ := hi
    obtain ⟨hs, hlog⟩ := logged_eq_some.mp hs
    rw [hlog]
    exact hi.step hok hs
  obtain ⟨codes, taken, hi⟩ := hinv
  exact hi.delivered

end Keys

def keyInTimeCheck (p : WorkRun × List UInt8) : WorkEvent → Bool
  | .key scancode => scancode ≠ 0 ∧ p.1.pc ≠ .clear ∧
      (strlen p.1.keyboard.mem p.1.keyboard.keyboardBuffer).all fun n => decide (n < 1023)
  | _ => true

theorem keyInTime_of_check {p : WorkRun × List UInt8} {ev : WorkEvent} (h : keyInTimeCheck p ev = true) :
    KeyInTime p.1 ev := by
  cases ev with
  | key scancode =>
    obtain ⟨hne, hclear, hroom⟩ := of_decide_eq_true h
    refine fun _ => ⟨hne, hclear, fun n hn => ?_⟩
    rw [hn] at hroom
    exact of_decide_eq_true hroom
  | _ => trivial

theorem keysStart_workerStarts : KeysStart workerStarts :=
  ⟨by decide, by decide, fun _ _ => rfl, rfl, rfl, rfl, rfl⟩

/-- The second key is pressed while the worker translates the first. -/
def twoKeys : WorkRun × List UInt8 :=
  (runList (logged workStep WorkEvent.accepted) keyInTimeCheck
    ([.run, .key 0x1E, .run, .run, .key 0x30] ++ List.replicate 12 .run) (workerStarts, [])).getD (workerStarts, [])

theorem two_keys_delivered : KeysDelivered twoKeys.1 twoKeys.2 ∧ twoKeys.1.stdin = [97, 98] := by
  have hrun : runList (logged workStep WorkEvent.accepted) keyInTimeCheck
      ([.run, .key 0x1E, .run, .run, .key 0x30] ++ List.replicate 12 .run) (workerStarts, []) =
        some (twoKeys.1, twoKeys.2) := runList_getD (by decide +kernel)
  exact ⟨keystrokes_delivered keysStart_workerStarts (runList_steps (fun _ _ => keyInTime_of_check) hrun),
    by decide +kernel⟩

/-- The second key is pressed after the test that finds no other. -/
def keyBeforeClear : WorkRun × List UInt8 :=
  (runList (logged workStep WorkEvent.accepted) (fun _ _ => true) ([.run, .key 0x1E] ++ List.replicate 6 .run ++
    [.key 0x30] ++ List.replicate 6 .run) (workerStarts, [])).getD (workerStarts, [])

/-- The key is lost, and a question mark written for it. -/
theorem keystroke_lost : KeysStart workerStarts ∧
    Steps (logged workStep WorkEvent.accepted) (fun _ _ => True) (workerStarts, []) keyBeforeClear ∧
    keyBeforeClear.2 = [0x1E, 0x30] ∧ keyBeforeClear.1.stdin = [97, 63] ∧
    keyBeforeClear.2.map translate = [97, 98] ∧ ¬ KeysDelivered keyBeforeClear.1 keyBeforeClear.2 := by
  have hrun : runList (logged workStep WorkEvent.accepted) (fun _ _ => true) ([.run, .key 0x1E] ++
      List.replicate 6 .run ++ [.key 0x30] ++ List.replicate 6 .run) (workerStarts, []) =
        some keyBeforeClear := runList_getD (by decide +kernel)
  have hstdin : keyBeforeClear.1.stdin = [97, 63] := by decide +kernel
  have htyped : keyBeforeClear.2 = [0x1E, 0x30] := by decide +kernel
  refine ⟨keysStart_workerStarts, runList_steps (fun _ _ _ => trivial) hrun, htyped, hstdin, ?_, fun h => ?_⟩
  · rw [htyped]
    decide
  · have hprefix := h.1
    rw [hstdin, htyped] at hprefix
    exact absurd hprefix (by decide)

end X86Osdev.Kernel
