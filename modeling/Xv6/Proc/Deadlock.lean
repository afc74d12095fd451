/-
Deadlock between CPUs over ptable.lock, tickslock and cons.lock.

Any number of CPUs run the kernel paths `Path` from any data, with every acquire, release, read and write as one step
(`Lib.Interleave`). The timer and the keyboard interrupt a CPU that holds no lock; the timer's yield and the scheduler's
next pass follow in the same way, and a process that was switched out may go on on another CPU.

Most paths take tickslock and cons.lock inside ptable.lock. Four take ptable.lock inside one of the other two: the clock
tick and consoleintr (wakeup), sys_sleep and consoleread (sleep). `Path.Nested` are the paths that do not.

Results:
- `no_deadlock`: no interleaving of nested paths reaches a cycle of waiting CPUs.
- `tick_and_dispatch_deadlock`: CPU 0's clock tick holds tickslock and waits for ptable.lock, CPU 1's scheduler holds
  ptable.lock and waits for tickslock.
-/
import Xv6.Lib.Interleave
import Xv6.Proc.Console
import Xv6.Proc.Locks

namespace Xv6

open LockProg Runs Function

/-! ## Lock sets of the paths that sleep or wake under another lock -/

section Specs

variable {ok : (Lock → Bool) → Lock → Prop} {H : Lock → Bool} {ch : Chan} {ctx : Ctx}

/-- `sleep` from a path whose lock is none of the three -/
theorem wp_sleep (hA : Allows ok H) : wp ok (sleep ch none ctx) (fun _ H' => H' = H) H := by
  refine wp_read fun r => ?_
  cases r with
  | none => exact wp_panic _
  | some p => exact wp_section hA fun _ _ => wp_sleepLocked p ch ctx

/-- `sleep` from a path that holds l -/
theorem wp_sleepOn {l : Lock} (hl : l ≠ .ptable) (ho : May ok H .ptable) :
    wp ok (sleep ch (some l) ctx) (fun _ H' => H' = update H l false) H := by
  refine wp_read fun r => ?_
  cases r with
  | none => exact wp_panic _
  | some p =>
    simp only [ne_eq, Option.some.injEq, hl, not_false_eq_true, if_true]
    refine wp_bind.2 (wp_acquire.2 fun hp => ⟨ho hp, wp_bind.2 (wp_release.2 fun _ => ?_)⟩)
    refine wp_mono (fun _ _ e => ?_) (wp_sleepLocked p ch ctx)
    rw [e, update_comm hl.symm, update_idem, ← hp, update_comm hl, update_eq_self]

theorem wp_sysSleepLoop {t n : ℕ} (ho : n ≠ 0 → May ok H .ptable) :
    wp ok (sysSleepLoop t n) (fun _ H' => H' = update H .ticks false) H := by
  refine wp_read fun k => ?_
  split_ifs with hn
  · refine wp_curproc fun i => wp_read fun p => ?_
    split_ifs
    · simp
    · exact wp_bind.2 (wp_mono (fun _ _ e => (wp_ret _).2 e) (wp_sleepOn (by decide) (ho (by omega))))
  · simp

theorem wp_consoleLoop {t n : ℕ} (ho : n ≠ 0 → May ok H .ptable) :
    wp ok (consoleLoop t n) (fun _ H' => H' = update H .cons false) H := by
  induction n with
  | zero => simp [consoleLoop]
  | succ n ih =>
    have hp : May ok H .ptable := ho (by omega)
    rw [consoleLoop]
    refine wp_read fun k => wp_ite.2 ⟨fun _ => ?_, fun _ => ?_⟩
    · refine wp_curproc fun i => wp_read fun p => ?_
      split_ifs
      · simp
      · exact wp_bind.2 (wp_mono (fun _ _ e => (wp_ret _).2 e) (wp_sleepOn (by decide) hp))
    · simp [modInput, ih fun _ => hp]

/-- a path that takes l and ends with its release -/
theorem wp_under {α : Type} {l : Lock} {p : K α} (ho : May ok H l)
    (hp : H l = false → wp ok p (fun _ H' => H' = update (update H l true) l false)
      (update H l true)) : wp ok (do acquire l; p) (fun _ H' => H' = H) H := by
  refine wp_bind.2 (wp_acquire.2 fun hl => ⟨ho hl, wp_mono (fun _ _ e => ?_) (hp hl)⟩)
  rw [e, taken_given hl]

/-- the keys that only edit the line: ^P, ^U, ^H, DEL, and NUL, which is dropped -/
def editing (c : ℕ) : Prop := c = ctrl 'P' ∨ c = ctrl 'U' ∨ c = ctrl 'H' ∨ c = 127 ∨ c = 0

theorem wp_consoleKey {c : ℕ} (hw : ¬ editing c → wp ok (wakeup inputChan) (fun _ H' => H' = H) H) :
    wp ok (consoleKey c) (fun _ H' => H' = H) H := by
  unfold consoleKey consoleChar
  split_ifs with h1 h2 h3
  · exact (wp_ret _).2 rfl
  · simp [modInput]
  · simp [modInput]
  · refine wp_read fun k => wp_ite.2 ⟨fun h4 => ?_, fun _ => (wp_ret _).2 rfl⟩
    refine wp_write (wp_read fun k => wp_ite.2 ⟨fun _ => wp_write (hw ?_), fun _ => (wp_ret _).2 rfl⟩)
    unfold editing
    tauto

theorem wp_procdump (ho : May ok H .cons) (depth : Slot → ℕ) : wp ok (procdump depth) (fun _ H' => H' = H) H := by
  refine wp_forEach slots fun i _ => wp_read fun p => ?_
  split_ifs
  · refine wp_after (wp_cprintf ho) fun _ => ?_
    exact wp_after (wp_forEach _ fun _ _ => wp_cprintf ho) fun _ => wp_cprintf ho
  · exact wp_after (wp_cprintf ho) fun _ => wp_cprintf ho
  · exact (wp_ret _).2 rfl

/-- ptable.lock may be taken inside another lock, by wakeup and by sleep -/
structure Reverses (ok : (Lock → Bool) → Lock → Prop) (H : Lock → Bool) : Prop where
  wakeup : ∀ l ch, wp ok (wakeup ch) (fun _ H' => H' = update H l true) (update H l true)
  sleep : ∀ l, May ok (update H l true) .ptable

theorem wp_clockTick (hA : Allows ok H) (hR : Reverses ok H) : wp ok clockTick (fun _ H' => H' = H) H := by
  refine wp_under hA.ticks fun _ => wp_write (wp_read fun k => ?_)
  exact wp_after (hR.wakeup .ticks .ticks) fun _ => by simp

theorem wp_consoleintr {getc : List ℕ} (hA : Allows ok H)
    (hw : ∀ c ∈ getc, ¬ editing c → wp ok (wakeup inputChan) (fun _ H' => H' = update H .cons true)
      (update H .cons true)) (depth : Slot → ℕ) : wp ok (consoleintr getc depth) (fun _ H' => H' = H) H := by
  refine wp_bind.2 (wp_acquire.2 fun hl => ⟨hA.cons hl, ?_⟩)
  refine wp_after (wp_forEach getc fun c hc => wp_consoleKey (hw c hc)) fun _ => ?_
  refine wp_bind.2 (wp_release.2 fun _ => ?_)
  rw [taken_given hl]
  split_ifs
  · exact wp_procdump hA.cons depth
  · exact (wp_ret _).2 rfl

end Specs

/-! ## The kernel paths -/

/-- trap's timer case: the clock is CPU 0's -/
def timerInterrupt : K Unit := do
  if ← reads fun c _ => decide (c = 0) then timerTick

inductive Path where
  | timerInterrupt
  | dispatch
  | fork (kalloc copyuvm : Bool)
  | yield
  /-- from a path whose lock is none of the three -/
  | sleep (ch : Chan) (ctx : Ctx)
  | wakeup (ch : Chan)
  | kill (pid : Int)
  | setDeadlineForProcess (pid deadline : Int)
  | changeSchedLevel (pid target : Int)
  | printSchedInfo
  | sysSleep (n : ℕ)
  | sysSleepAgain (ticks0 n : ℕ)
  | consoleintr (getc : List ℕ) (depth : Slot → ℕ)
  | consoleread (n target : ℕ)

def Path.prog : Path → K Unit
  | .timerInterrupt => Xv6.timerInterrupt
  | .dispatch => do let _ ← Xv6.dispatch
  | .fork kalloc copyuvm => do let _ ← Xv6.fork kalloc copyuvm
  | .yield => Xv6.yield
  | .sleep ch ctx => Xv6.sleep ch none ctx
  | .wakeup ch => Xv6.wakeup ch
  | .kill pid => do let _ ← Xv6.kill pid
  | .setDeadlineForProcess pid d => do let _ ← Xv6.setDeadlineForProcess pid d
  | .changeSchedLevel pid t => do let _ ← Xv6.changeSchedLevel pid t
  | .printSchedInfo => do let _ ← Xv6.printSchedInfo
  | .sysSleep n => do let _ ← Xv6.sysSleep n
  | .sysSleepAgain ticks0 n => do let _ ← Xv6.sysSleepAgain ticks0 n
  | .consoleintr getc depth => Xv6.consoleintr getc depth
  | .consoleread n target => do let _ ← Xv6.consoleread n target

/-- the path takes no lock outside the order ptable.lock, tickslock, cons.lock -/
def Path.Nested : Path → Prop
  | .timerInterrupt => False
  | .sysSleep n | .sysSleepAgain _ n | .consoleread n _ => n = 0
  | .consoleintr getc _ => ∀ c ∈ getc, editing c
  | _ => True

/-- change_sched_level may return with ptable.lock held -/
def Path.changesLevel : Path → Prop
  | .changeSchedLevel _ _ => True
  | _ => False

section Paths

variable {ok : (Lock → Bool) → Lock → Prop} {H : Lock → Bool}

theorem wp_discard {α : Type} {p : K α} {P : Prop} (h : wp ok p (fun _ H' => H' = H) H) :
    wp ok (do let _ ← p) (fun _ H' => H' = H ∨ P ∧ H' = update H .ptable true) H :=
  wp_after h fun _ => (wp_ret ()).2 (.inl rfl)

/-- the lock set of every path: nested, or where ptable.lock may be taken inside the others -/
theorem wp_path (p : Path) (hA : Allows ok H) (hp : p.Nested ∨ Reverses ok H) :
    wp ok p.prog (fun _ H' => H' = H ∨ p.changesLevel ∧ H' = update H .ptable true) H := by
  have same {q : K Unit} {P : Prop} (h : wp ok q (fun _ H' => H' = H) H) :
      wp ok q (fun _ H' => H' = H ∨ P ∧ H' = update H .ptable true) H := wp_mono (fun _ _ => .inl) h
  cases p with
  | timerInterrupt =>
    have hR : Reverses ok H := hp.resolve_left id
    refine same (wp_read fun b => ?_)
    split_ifs
    · exact wp_after (wp_clockTick hA hR) fun n => wp_after (wp_updateWaitTime hA n) fun _ => (wp_ret ()).2 rfl
    · exact (wp_ret ()).2 rfl
  | dispatch => exact wp_discard (wp_dispatch hA)
  | fork kalloc copyuvm => exact wp_discard (wp_fork hA kalloc copyuvm)
  | yield => exact same (wp_yield hA)
  | sleep ch ctx => exact same (wp_sleep hA)
  | wakeup ch => exact same (wp_wakeup hA ch)
  | kill pid => exact wp_discard (wp_kill hA pid)
  | setDeadlineForProcess pid d => exact wp_discard (wp_setDeadlineForProcess hA pid d)
  | changeSchedLevel pid t =>
    refine wp_bind.2 (wp_mono (fun _ _ e => (wp_ret ()).2 ?_) (wp_changeSchedLevel hA pid t))
    exact e.imp id fun e => ⟨trivial, e⟩
  | printSchedInfo => exact wp_discard (wp_printSchedInfo hA)
  | sysSleep n =>
    refine wp_discard (wp_under hA.ticks fun _ => wp_read fun k => wp_sysSleepLoop fun hn => ?_)
    exact (hp.resolve_left hn).sleep .ticks
  | sysSleepAgain t n =>
    refine wp_discard (wp_under hA.ticks fun _ => wp_sysSleepLoop fun hn => ?_)
    exact (hp.resolve_left hn).sleep .ticks
  | consoleintr getc depth =>
    refine same (wp_consoleintr hA (fun c hc he => ?_) depth)
    exact (hp.resolve_left fun h => he (h c hc)).wakeup .cons inputChan
  | consoleread n t =>
    refine wp_discard (wp_under hA.cons fun _ => wp_consoleLoop fun hn => ?_)
    exact (hp.resolve_left hn).sleep .cons

theorem reverses_any (H : Lock → Bool) : Reverses anyOrder H :=
  ⟨fun _ ch => wp_wakeup (allows_any _) ch, fun _ _ => trivial⟩

/-- with ptable.lock already held, both panic -/
theorem reverses_held (h : H .ptable = true) : Reverses ok H := by
  have hl (l : Lock) : update H l true .ptable = true := by
    by_cases e : Lock.ptable = l
    · subst e; simp
    · simp [e, h]
  exact ⟨fun l _ => wp_acquire_held (hl l), fun l hf => absurd hf (by simp [hl l])⟩

end Paths

/-! ## Interleavings of the kernel paths -/

/-- ptable.lock, then tickslock, then cons.lock -/
def Lock.rank : Lock → ℕ
  | .ptable => 0
  | .ticks => 1
  | .cons => 2

/-- what a CPU may hold between paths: ptable.lock, if change_sched_level kept it -/
def BetweenPaths (H : Lock → Bool) : Prop := H .ticks = false ∧ H .cons = false

instance : Fintype Lock := ⟨{.ptable, .ticks, .cons}, fun l => by cases l <;> decide⟩

abbrev KConf := Conf Lock Cpu Kernel

/-- what interrupts a CPU: the timer and the keyboard, and after the timer yield and the scheduler's next pass -/
inductive IrqPath where
  | timerInterrupt
  | consoleintr (getc : List ℕ) (depth : Slot → ℕ)
  | yield
  | dispatch

def IrqPath.path : IrqPath → Path
  | .timerInterrupt => .timerInterrupt
  | .consoleintr getc depth => .consoleintr getc depth
  | .yield => .yield
  | .dispatch => .dispatch

inductive PathAct where
  | call (c : Cpu) (p : Path)
  | interrupt (c : Cpu) (h : IrqPath)
  | migrate (c d : Cpu)
  | op (c : Cpu)

def PathAct.act : PathAct → Act Lock Cpu Kernel
  | .call c p => .call c p.prog
  | .interrupt c h => .interrupt c h.path.prog
  | .migrate c d => .migrate c d
  | .op c => .op c

def PathAct.Nested : PathAct → Prop
  | .call _ p => p.Nested
  | .interrupt _ h => h.path.Nested
  | _ => True

/-- between paths, the nestings of proc.c follow the rank -/
theorem allows_below {H : Lock → Bool} (h : BetweenPaths H) : Allows (below Lock.rank) H := by
  obtain ⟨ht, hc⟩ := h
  refine ⟨fun hp m hm => ?_, fun _ m hm => ?_, fun _ m hm => ?_, fun _ _ m hm => ?_, fun _ _ m hm => ?_,
    fun _ _ m hm => ?_⟩ <;> cases m <;> simp_all [Lock.rank]

/-- a path leaves the locks as they were, but for a ptable.lock that change_sched_level keeps -/
theorem act_fits {ok : (Lock → Bool) → Lock → Prop} {a : PathAct} (hok : ∀ H, BetweenPaths H → Allows ok H)
    (hpath : ∀ H, a.Nested ∨ Reverses ok H) : a.act.Fits ok BetweenPaths := by
  cases a with
  | call c p =>
    refine fun H hH => wp_mono (fun _ H' e => ?_) (wp_path p (hok H hH) (hpath H))
    rcases e with rfl | ⟨-, rfl⟩
    · exact hH
    · simpa [BetweenPaths] using hH
  | interrupt c h =>
    refine wp_mono (fun _ H' e => ?_) (wp_path h.path (hok _ ⟨rfl, rfl⟩) (hpath _))
    refine e.resolve_right fun e => ?_
    cases h <;> exact e.1
  | migrate c d | op c => trivial

theorem act_orderly (a : PathAct) : a.act.Orderly Lock.rank BetweenPaths := by
  cases a with
  | call c p =>
    rintro H hH ⟨l, hl⟩
    have hp : H .ptable = true := by cases l <;> simp_all [BetweenPaths]
    exact wp_mono (fun _ _ _ => trivial) (wp_path p (allows_below hH) (.inr (reverses_held hp)))
  | _ => trivial

/-- **No deadlock.** From any data, any interleaving of the kernel paths on any number of CPUs: if no CPU takes a lock
while another CPU holds one, unless both take their locks in order from there on, no state with a cycle of CPUs spinning
on each other's locks is reached. Nested paths may interleave in any way. -/
theorem no_deadlock (k : Kernel) (as : List PathAct) :
    (Along Conf.act (Conf.Clear Lock.rank) (Conf.start k) (as.map PathAct.act) →
        ¬ ((Conf.start k : KConf).run (as.map PathAct.act)).Deadlocked) ∧
      ((∀ a ∈ as, a.Nested) → Along Conf.act (Conf.Clear Lock.rank) (Conf.start k) (as.map PathAct.act)) := by
  refine ⟨not_deadlocked (I := BetweenPaths) ⟨rfl, rfl⟩ k ?_, fun h => clear_of_fits (I := BetweenPaths) ⟨rfl, rfl⟩ k ?_⟩
  · simp only [List.mem_map]
    rintro _ ⟨a, -, rfl⟩
    exact ⟨act_fits (fun H _ => allows_any H) fun H => .inr (reverses_any H), act_orderly a⟩
  · simp only [List.mem_map]
    rintro _ ⟨a, ha, rfl⟩
    exact act_fits (fun _ => allows_below) fun _ => .inl (h a ha)

/-- init forks on CPU 0, up to where it holds ptable.lock and tickslock; CPU 1's scheduler asks for ptable.lock -/
def forkHolds : List PathAct := .call 0 (.fork true true) :: List.replicate 11 (.op 0) ++ [.call 1 .dispatch, .op 1]

/-- CPU 0 gives both locks back, CPU 1 takes them and dispatches the child, and init asks for ptable.lock to yield -/
def dispatchHolds : List PathAct :=
  forkHolds ++ List.replicate 5 (.op 0) ++ List.replicate 8 (.op 1) ++ [.call 0 .yield, .op 0]

theorem no_deadlock_dispatchHolds :
    ((Conf.start (run boot [.userinit 0, .dispatch 0]).k : KConf).run (forkHolds.map PathAct.act)).waits 1 0 ∧
      ((Conf.start (run boot [.userinit 0, .dispatch 0]).k : KConf).run (dispatchHolds.map PathAct.act)).waits 0 1 ∧
      ((Conf.start (run boot [.userinit 0, .dispatch 0]).k : KConf).run (dispatchHolds.map PathAct.act)).w.locks .ticks = some 1 ∧
      ¬ ((Conf.start (run boot [.userinit 0, .dispatch 0]).k : KConf).run (dispatchHolds.map PathAct.act)).Deadlocked := by
  have h : ∀ a ∈ dispatchHolds, a.Nested := by
    simp [dispatchHolds, forkHolds, PathAct.Nested, Path.Nested, or_imp, forall_and]
  obtain ⟨hno, hclear⟩ := no_deadlock (run boot [.userinit 0, .dispatch 0]).k dispatchHolds
  refine ⟨?_, ?_, by decide +kernel, hno (hclear h)⟩
  · unfold Conf.waits
    decide +kernel
  · unfold Conf.waits
    decide +kernel

/-- the timer interrupts CPU 0, which takes tickslock; CPU 1 takes ptable.lock and dispatches init -/
def crossedActs : List PathAct :=
  .interrupt 0 .timerInterrupt :: List.replicate 4 (.op 0) ++ .call 1 .dispatch :: List.replicate 7 (.op 1)

theorem tick_and_dispatch_deadlock :
    ((Conf.start (run boot [.userinit 0]).k : KConf).run (crossedActs.map PathAct.act)).Deadlocked := by
  refine ⟨0, .tail (.single (b := 1) ?_) ?_⟩
  · unfold Conf.waits
    decide +kernel
  · unfold Conf.waits
    decide +kernel

end Xv6
