/-
Lock balance of the process operations.

Each function of proc.c gets one lemma in the calculus of `LockSet`: from any lock set H, which locks it takes in which
order, and that it gives them back wherever it returns. The data it reads is arbitrary, and so is what other CPUs do in
between. `Allows ok H` lists the nestings that the functions use: tickslock and cons.lock inside ptable.lock, cons.lock
inside tickslock.

change_sched_level is the exception: it returns -1 with ptable.lock held when the process is already at the target
level (`Call.leaks`).

Results:
- `calls_give_locks_back`: from every state, a call that returns leaves ptable.lock and tickslock not held by its CPU if
  and only if it is not that one.
- `same_level_change_leaks`: init asks for the level it has and keeps ptable.lock.
-/
import Xv6.Lib.LockSet
import Xv6.Proc.Reach

namespace Xv6

open LockProg Function

/-! ## Lock sets of the functions of proc.c -/

section Specs

variable {ok : (Lock → Bool) → Lock → Prop} {H : Lock → Bool} {α : Type}

/-- taking l, if it is not held, is allowed -/
def May (ok : (Lock → Bool) → Lock → Prop) (H : Lock → Bool) (l : Lock) : Prop := H l = false → ok H l

/-- the nestings that the functions of proc.c use -/
structure Allows (ok : (Lock → Bool) → Lock → Prop) (H : Lock → Bool) : Prop where
  ptable : May ok H .ptable
  ticks : May ok H .ticks
  cons : May ok H .cons
  ticksCons : H .ticks = false → May ok (update H .ticks true) .cons
  ptableTicks : H .ptable = false → May ok (update H .ptable true) .ticks
  ptableCons : H .ptable = false → May ok (update H .ptable true) .cons

theorem wp_cprintf (ho : May ok H .cons) : wp ok cprintf (fun _ H' => H' = H) H := wp_withLock ho ((wp_ret ()).2 rfl)

theorem wp_makeRunnable (ho : May ok H .ticks) (i : Slot) (f : ℕ → Proc → Proc) :
    wp ok (makeRunnable i f) (fun _ H' => H' = H) H := by
  simp only [makeRunnable, modProc, addCount, Prog.bind_eq, wp_bind, wp_writes]
  exact wp_withLock ho (wp_writes.2 rfl)

theorem wp_wakeup1 (ho : May ok H .ticks) (ch : Chan) : wp ok (wakeup1 ch) (fun _ H' => H' = H) H := by
  refine wp_forEach slots fun i _ => wp_read fun p => ?_
  split_ifs
  · exact wp_makeRunnable ho i _
  · exact (wp_ret ()).2 rfl

theorem wp_curproc {f : Slot → K α} {Q : α → (Lock → Bool) → Prop} (h : ∀ i, wp ok (f i) Q H) :
    wp ok (curproc.bind f) Q H := by
  refine wp_bind.2 (wp_read fun r => ?_)
  cases r with
  | none => exact wp_panic _
  | some i => exact (wp_ret i).2 (h i)

/-- a section that runs p under ptable.lock -/
theorem wp_section {p : K α} (hA : Allows ok H)
    (hp : May ok (update H .ptable true) .ticks → May ok (update H .ptable true) .cons →
      wp ok p (fun _ H' => H' = update (update H .ptable true) .ptable false)
        (update H .ptable true)) : wp ok (do acquire .ptable; p) (fun _ H' => H' = H) H := by
  rw [Prog.bind_eq, wp_bind, wp_acquire]
  refine fun hl => ⟨hA.ptable hl, wp_mono (fun a H' e => ?_) (hp (hA.ptableTicks hl) (hA.ptableCons hl))⟩
  rw [e, taken_given hl]

/-- `release(&ptable.lock); return a` -/
theorem wp_returning (a : α) :
    wp ok (do release .ptable; return a : K α) (fun _ H' => H' = update H .ptable false) H := by
  simp

theorem wp_sched (ctx : Ctx) : wp ok (sched ctx) (fun _ H' => H' = update H .ptable false) H := by
  refine wp_curproc fun i => ?_
  simp [getProc, modProc, backInScheduler]

theorem wp_sleepLocked (p : Slot) (ch : Chan) (ctx : Ctx) :
    wp ok (sleepLocked p ch ctx) (fun _ H' => H' = update H .ptable false) H := by
  simp [sleepLocked, getProc, modProc, addCount, wp_sched]

theorem wp_yield (hA : Allows ok H) : wp ok yield (fun _ H' => H' = H) H := by
  refine wp_section hA fun ht _ => wp_curproc fun i => ?_
  exact wp_after (wp_makeRunnable ht i _) fun _ => wp_sched _

theorem wp_wakeup (hA : Allows ok H) (ch : Chan) : wp ok (wakeup ch) (fun _ H' => H' = H) H := by
  refine wp_section hA fun ht _ => ?_
  exact wp_after (wp_wakeup1 ht ch) fun _ => wp_release.2 fun _ => rfl

theorem wp_kill (hA : Allows ok H) (pid : Int) : wp ok (kill pid) (fun _ H' => H' = H) H := by
  refine wp_section hA fun ht _ => wp_read fun k => ?_
  cases k.findPid pid with
  | none => exact wp_returning _
  | some i =>
    refine wp_write (wp_read fun p => ?_)
    split_ifs
    · exact wp_after (wp_makeRunnable ht i _) fun _ => wp_returning _
    · exact wp_returning _

theorem wp_allocprocLocked (hA : Allows ok H) : wp ok allocprocLocked (fun _ H' => H' = H) H := by
  refine wp_section hA fun _ _ => wp_read fun k => ?_
  cases k.findUnused with
  | none => exact wp_returning _
  | some i => exact wp_write (wp_returning _)

theorem wp_allocproc (hA : Allows ok H) (b : Bool) : wp ok (allocproc b) (fun _ H' => H' = H) H := by
  refine wp_after (wp_allocprocLocked hA) fun r => ?_
  cases r <;> simp [modProc]

theorem wp_forkFinish (hA : Allows ok H) (np : Slot) : wp ok (forkFinish np) (fun _ H' => H' = H) H :=
  wp_read fun _ => wp_section hA fun ht _ => wp_after (wp_makeRunnable ht np _) fun _ => wp_returning _

theorem wp_fork (hA : Allows ok H) (kalloc copyuvm : Bool) : wp ok (fork kalloc copyuvm) (fun _ H' => H' = H) H := by
  refine wp_curproc fun cur => ?_
  refine wp_after (wp_allocproc hA kalloc) fun r => ?_
  cases r with
  | none => simp
  | some np => simp [modProc, wp_forkFinish hA]

theorem wp_waitRound (cur : Slot) : wp ok (waitRound cur) (fun _ H' => H' = update H .ptable false) H := by
  refine wp_read fun k => ?_
  rcases k.waitScan cur slots false with ⟨b, _ | i⟩
  · refine wp_read fun p => ?_
    split_ifs
    · exact wp_returning _
    · exact wp_bind.2 (wp_mono (fun _ _ e => (wp_ret _).2 e) (wp_sleepLocked cur _ _))
  · exact wp_read fun p => wp_write (wp_returning _)

theorem wp_wait (hA : Allows ok H) : wp ok wait (fun _ H' => H' = H) H :=
  wp_curproc fun cur => wp_section hA fun _ _ => wp_waitRound cur

theorem wp_resumed (i : Slot) : wp ok (resumed i) (fun _ H' => H' = update H .ptable false) H := by
  refine wp_read fun p => ?_
  cases p.context with
  | forkret | yield => exact wp_returning _
  | exit => exact wp_panic _
  | wait => exact wp_write (wp_waitRound i)
  | sleep | sysSleep _ _ | consoleread _ _ => exact wp_write (wp_returning _)

/-- a pass of the scheduler, with the process it switches to -/
theorem wp_dispatch (hA : Allows ok H) : wp ok dispatch (fun _ H' => H' = H) H := by
  refine wp_bind.2 (wp_bind.2 (wp_acquire.2 fun hl => ⟨hA.ptable hl, ?_⟩))
  refine wp_read fun chosen => wp_write ?_
  cases chosen with
  | none => simp [taken_given hl]
  | some i =>
    refine wp_write (wp_write (wp_write (wp_write (wp_after (wp_withLock (hA.ptableTicks hl) (wp_writes.2 rfl))
      fun _ => wp_write ((wp_ret _).2 (wp_bind.2 (wp_mono (fun r _ e => ?_) (wp_resumed i))))))))
    rw [e, taken_given hl]
    exact (wp_ret _).2 rfl

theorem wp_setDeadlineForProcess (hA : Allows ok H) (pid d : Int) :
    wp ok (setDeadlineForProcess pid d) (fun _ H' => H' = H) H := by
  unfold setDeadlineForProcess
  split_ifs
  · exact wp_after (wp_cprintf hA.cons) fun _ => (wp_ret _).2 rfl
  · refine wp_section hA fun _ hc => wp_read fun k => ?_
    cases k.findPid pid with
    | none => exact wp_returning _
    | some i => exact wp_write (wp_after (wp_cprintf hc) fun _ => wp_returning _)

/-- change_sched_level may keep ptable.lock -/
theorem wp_changeSchedLevel (hA : Allows ok H) (pid t : Int) :
    wp ok (changeSchedLevel pid t) (fun _ H' => H' = H ∨ H' = update H .ptable true) H := by
  unfold changeSchedLevel
  by_cases ht : t ≠ 1 ∧ t ≠ 2
  · rw [if_pos ht]
    exact wp_after (wp_cprintf hA.cons) fun _ => (wp_ret _).2 (.inl rfl)
  rw [if_neg ht, Prog.bind_eq, wp_bind, wp_acquire]
  refine fun hl => ⟨hA.ptable hl, wp_read fun k => ?_⟩
  cases k.findPid pid with
  | none => exact wp_mono (fun _ _ e => .inl (by rw [e, taken_given hl])) (wp_returning _)
  | some i =>
    refine wp_read fun p => ?_
    by_cases hp : p.schedLevel = t
    · rw [if_pos hp]
      exact wp_after (wp_cprintf (hA.ptableCons hl)) fun _ => (wp_ret _).2 (.inr rfl)
    · rw [if_neg hp]
      exact wp_write (wp_after (wp_cprintf (hA.ptableCons hl)) fun _ => wp_write
        (wp_mono (fun _ _ e => .inl (by rw [e, taken_given hl])) (wp_returning _)))

theorem wp_agingCheck (n : Int) (i : Slot) : wp ok (agingCheck n i) (fun _ H' => H' = H) H := by
  refine wp_read fun p => ?_
  split_ifs
  · exact wp_write (wp_read fun _ => (wp_ret _).2 rfl)
  · exact (wp_ret _).2 rfl

/-- a change_sched_level that keeps ptable.lock does not get past the next acquire -/
theorem wp_updateWaitTime (hA : Allows ok H) (n : Int) : wp ok (updateWaitTime n) (fun _ H' => H' = H) H := by
  refine wp_bind.2 (wp_acquire.2 fun hl => ⟨hA.ptable hl, ?_⟩)
  refine wp_after (wp_forEach slots fun i _ => wp_after (wp_agingCheck n i) fun due => ?_) fun _ => ?_
  · cases due with
    | false => exact (wp_ret ()).2 rfl
    | true =>
      refine wp_bind.2 (wp_release.2 fun _ => ?_)
      rw [taken_given hl]
      refine wp_read fun p => wp_bind.2 (wp_mono (fun r H' e => ?_) (wp_changeSchedLevel hA p.pid 1))
      rcases e with rfl | rfl
      · exact wp_bind.2 (wp_acquire.2 fun _ => ⟨hA.ptable hl, wp_writes.2 rfl⟩)
      · exact wp_bind.2 (wp_acquire.2 fun h => absurd h (by simp))
  · exact wp_mono (fun _ _ e => by rw [e, taken_given hl]) (wp_returning _)

theorem wp_isHigherWaiting (hA : Allows ok H) : wp ok isHigherWaiting (fun _ H' => H' = H) H := by
  refine wp_read fun k => ?_
  split_ifs
  · exact wp_after (wp_yield hA) fun _ => (wp_ret _).2 rfl
  · exact (wp_ret _).2 rfl

theorem wp_printSchedInfo (hA : Allows ok H) : wp ok printSchedInfo (fun _ H' => H' = H) H := by
  have hrow (ho : May ok (update H .ptable true) .cons) (cell : ℕ × ℕ) :
      wp ok (do cprintf; printspaces (cell.1 - cell.2)) (fun _ H' => H' = update H .ptable true)
        (update H .ptable true) :=
    wp_after (wp_cprintf ho) fun _ => wp_forEach _ fun _ _ => wp_cprintf ho
  refine wp_bind.2 (wp_bind.2 (wp_acquire.2 fun hl => ⟨hA.ticks hl, ?_⟩))
  refine wp_after (wp_cprintf (hA.ticksCons hl)) fun _ => wp_bind.2 (wp_release.2 fun _ => (wp_ret _).2 ?_)
  rw [taken_given hl]
  refine wp_after (wp_cprintf hA.cons) fun _ => wp_section hA fun _ hc => ?_
  refine wp_after (wp_forEach slots fun i _ => wp_read fun p => ?_) fun _ => wp_returning _
  split_ifs
  · exact wp_after (wp_forEach _ fun cell _ => hrow hc cell) fun _ => wp_cprintf hc
  · exact (wp_ret ()).2 rfl

end Specs

/-! ## The calls -/

/-- the process operations that return to their caller -/
inductive Call where
  | changeSchedLevel (pid target : Int)
  | setDeadlineForProcess (pid deadline : Int)
  | kill (pid : Int)
  | wakeup (ch : Chan)
  | updateWaitTime (osTicks : Int)
  | isHigherWaiting
  | printSchedInfo
  | fork (kalloc copyuvm : Bool)
  | wait
  | yield
deriving DecidableEq

/-- the call as a program; wait, yield and is_higher_waiting may switch to the scheduler -/
def Call.prog : Call → K Exit
  | .changeSchedLevel pid t => do return .ret (← Xv6.changeSchedLevel pid t)
  | .setDeadlineForProcess pid d => do return .ret (← Xv6.setDeadlineForProcess pid d)
  | .kill pid => do return .ret (← Xv6.kill pid)
  | .wakeup ch => do
    Xv6.wakeup ch
    return .ret 0
  | .updateWaitTime n => do return .ret (← Xv6.updateWaitTime n)
  | .isHigherWaiting => Xv6.isHigherWaiting
  | .printSchedInfo => do return .ret (← Xv6.printSchedInfo)
  | .fork kalloc copyuvm => do return .ret (← Xv6.fork kalloc copyuvm)
  | .wait => Xv6.wait
  | .yield => do
    Xv6.yield
    return .switched

/-- change_sched_level asked for the level that the process it finds already has -/
def Call.leaks (k : Kernel) : Call → Prop
  | .changeSchedLevel pid t => (t = 1 ∨ t = 2) ∧ ∃ i, k.findPid pid = some i ∧ (k.proc i).schedLevel = t
  | _ => False

/-- CPU c holds neither ptable.lock nor tickslock, and its next acquire of ptable.lock does not panic -/
structure Released (c : Cpu) (w : KWorld) : Prop where
  ptable : w.locks .ptable ≠ some c
  ticks : w.locks .ticks ≠ some c
  next : ∀ m w', (acquire .ptable : K Unit).run c w ≠ .panic m w'

variable {c : Cpu} {w w' : KWorld}

theorem released_iff : Released c w ↔ w.holds c .ptable = false ∧ w.holds c .ticks = false := by
  simp only [holds_eq_false]
  refine ⟨fun h => ⟨h.ptable, h.ticks⟩, fun ⟨hp, ht⟩ => ⟨hp, ht, fun m v => ?_⟩⟩
  simp only [acquire, Prog.run]
  split
  · simp
  · rename_i d hd
    rw [if_neg fun e => hp (hd.trans (by rw [e]))]
    simp

theorem allows_any (H : Lock → Bool) : Allows anyOrder H :=
  ⟨fun _ => trivial, fun _ => trivial, fun _ => trivial, fun _ _ => trivial, fun _ _ => trivial, fun _ _ => trivial⟩

theorem run_holds {p : K α} {Q : α → (Lock → Bool) → Prop} {a : α} (h : p.run c w = .ok a w')
    (hw : wp anyOrder p Q (w.holds c)) : Q a (w'.holds c) := wp_run h hw

/-- all calls but change_sched_level give back what they take -/
theorem wp_prog {ok : (Lock → Bool) → Lock → Prop} {H : Lock → Bool} (hA : Allows ok H) (call : Call)
    (hne : ∀ pid t, call ≠ .changeSchedLevel pid t) : wp ok call.prog (fun _ H' => H' = H) H := by
  cases call with
  | changeSchedLevel pid t => exact absurd rfl (hne pid t)
  | setDeadlineForProcess pid d => exact wp_after (wp_setDeadlineForProcess hA pid d) fun _ => (wp_ret _).2 rfl
  | kill pid => exact wp_after (wp_kill hA pid) fun _ => (wp_ret _).2 rfl
  | wakeup ch => exact wp_after (wp_wakeup hA ch) fun _ => (wp_ret _).2 rfl
  | updateWaitTime n => exact wp_after (wp_updateWaitTime hA n) fun _ => (wp_ret _).2 rfl
  | isHigherWaiting => exact wp_isHigherWaiting hA
  | printSchedInfo => exact wp_after (wp_printSchedInfo hA) fun _ => (wp_ret _).2 rfl
  | fork kalloc copyuvm => exact wp_after (wp_fork hA kalloc copyuvm) fun _ => (wp_ret _).2 rfl
  | wait => exact wp_wait hA
  | yield => exact wp_after (wp_yield hA) fun _ => (wp_ret _).2 rfl

/-- the lock set after change_sched_level, with no other CPU in between -/
theorem changeSchedLevel_holds {pid t r : Int} (hp : w.locks .ptable ≠ some c)
    (hr : (changeSchedLevel pid t).run c w = .ok r w') :
    (Call.leaks w.st (.changeSchedLevel pid t) → w'.holds c .ptable = true) ∧
      (¬ Call.leaks w.st (.changeSchedLevel pid t) → w'.holds c = w.holds c) := by
  by_cases ht : t ≠ 1 ∧ t ≠ 2
  · rw [changeSchedLevel, if_pos ht] at hr
    have h : w'.holds c = w.holds c :=
      run_holds (Q := fun _ H' => H' = w.holds c) hr (wp_after (wp_cprintf fun _ => trivial) fun _ => (wp_ret _).2 rfl)
    exact ⟨fun hl => absurd hl.1 (by tauto), fun _ => h⟩
  have ht' : t = 1 ∨ t = 2 := by tauto
  obtain ⟨lk, k⟩ := w
  cases hlk : lk .ptable with
  | some d =>
    have hd : d ≠ c := fun e => hp (by rw [← e]; exact hlk)
    rw [changeSchedLevel, if_neg ht, Prog.bind_eq, run_bind, run_acquire_other hlk hd] at hr
    cases hr
  | none =>
    have hl : World.holds c (⟨lk, k⟩ : KWorld) .ptable = false := by simp [hlk]
    rw [changeSchedLevel, if_neg ht, Prog.bind_eq, run_bind, run_acquire_free hlk, andThen_ok, Prog.bind_eq, run_bind,
      run_kernel, andThen_ok] at hr
    have hH : World.holds c (⟨update lk .ptable (some c), k⟩ : KWorld) =
      update (World.holds c (⟨lk, k⟩ : KWorld)) .ptable true := holds_taken (w := ⟨lk, k⟩)
    cases hf : k.findPid pid with
    | none =>
      rw [hf] at hr
      have h := run_holds hr (wp_returning _)
      rw [hH, taken_given hl] at h
      refine ⟨?_, fun _ => h⟩
      rintro ⟨-, i, hi, -⟩
      simp [hf] at hi
    | some i =>
      simp only [hf, Prog.bind_eq, run_bind, run_getProc, andThen_ok] at hr
      by_cases hlev : (k.proc i).schedLevel = t
      · rw [if_pos hlev] at hr
        have h := run_holds (Q := fun _ H' => H' = World.holds c ⟨update lk .ptable (some c), k⟩) hr
          (wp_after (wp_cprintf fun _ => trivial) fun _ => (wp_ret _).2 rfl)
        rw [hH] at h
        exact ⟨fun _ => by rw [h]; simp, fun hn => absurd ⟨ht', i, hf, hlev⟩ hn⟩
      · rw [if_neg hlev] at hr
        have h := run_holds hr
          (wp_write (wp_after (wp_cprintf fun _ => trivial) fun _ => wp_write (wp_returning _)))
        rw [hH, taken_given hl] at h
        refine ⟨?_, fun _ => h⟩
        rintro ⟨-, j, hj, hjl⟩
        cases hf.symm.trans hj
        exact absurd hjl hlev

/-- **Lock balance.** A call that returns leaves ptable.lock and tickslock not held by its CPU, as on entry, if and only
if it is not change_sched_level asked for the level that the process already has. With other CPUs in between, every other
call does so, and so does the process that a scheduler pass switches to: the return from wait, yield and sleep. -/
theorem calls_give_locks_back (c : Cpu) (w w' : KWorld) (h : Released c w) :
    (∀ (call : Call) (r : Exit), call.prog.run c w = .ok r w' → (Released c w' ↔ ¬ call.leaks w.st)) ∧
      (∀ (call : Call) (r : Exit), (∀ pid t, call ≠ .changeSchedLevel pid t) → Reaches c call.prog w r w' →
        Released c w') ∧
      ∀ r, Reaches c dispatch w r w' → Released c w' := by
  have same (e : w'.holds c = w.holds c) : Released c w' := by
    rw [released_iff, e]
    exact released_iff.1 h
  refine ⟨fun call r hr => ?_, fun call r hne hr => ?_, fun r hr => ?_⟩
  · by_cases hne : ∀ pid t, call ≠ .changeSchedLevel pid t
    · refine iff_of_true (same (holds_of_reaches (reaches_of_run hr) (wp_prog (allows_any _) call hne))) ?_
      cases call <;> first | exact id | exact absurd rfl (hne _ _)
    · simp only [not_forall, not_not] at hne
      obtain ⟨pid, t, rfl⟩ := hne
      simp only [Call.prog, Prog.bind_eq, run_bind] at hr
      cases hc : (changeSchedLevel pid t).run c w with
      | ok a v =>
        simp only [hc, andThen_ok, Prog.pure_eq, run_ret, Outcome.ok.injEq] at hr
        obtain ⟨-, rfl⟩ := hr
        obtain ⟨h1, h2⟩ := changeSchedLevel_holds h.ptable hc
        refine ⟨fun hw hl => ?_, fun hl => same (h2 hl)⟩
        have := h1 hl
        rw [(released_iff.1 hw).1] at this
        cases this
      | panic m v | spin m v => simp [hc] at hr
  · exact same (holds_of_reaches hr (wp_prog (allows_any _) call hne))
  · exact same (holds_of_reaches hr (wp_dispatch (allows_any _)))

theorem released_of_free {k : Kernel} : Released c ⟨free, k⟩ := released_iff.2 ⟨by simp [free], by simp [free]⟩

theorem calls_give_locks_back_kill : ∃ w', (Call.kill 2).prog.run 0 (run boot sampleRun).w = .ok (.ret 0) w' ∧
    Released 0 w' := by
  have hfree : (run boot sampleRun).w.locks .ptable = none := by decide +kernel
  have hw := w_of_free (run_ok hfree).locks
  have hf : (run boot sampleRun).k.findPid 2 = some 1 := by decide +kernel
  have hr : (Call.kill 2).prog.run 0 (run boot sampleRun).w = .ok (.ret 0) ⟨free, (run boot sampleRun).k.kill 1⟩ := by
    rw [hw]
    simp [Call.prog, run_kill, hf]
  exact ⟨_, hr, ((calls_give_locks_back 0 _ _ (by rw [hw]; exact released_of_free)).1 _ _ hr).2 id⟩

/-- init asks for the RR level, which it has -/
theorem same_level_change_leaks : Released 0 (run boot [.userinit 0, .dispatch 0]).w ∧
    ∃ w', (Call.changeSchedLevel 1 1).prog.run 0 (run boot [.userinit 0, .dispatch 0]).w = .ok (.ret (-1)) w' ∧
      w'.locks .ptable = some 0 := by
  have hfree : (run boot [.userinit 0, .dispatch 0]).w.locks .ptable = none := by decide +kernel
  have hw := w_of_free (run_ok hfree).locks
  have hf : (run boot [.userinit 0, .dispatch 0]).k.findPid 1 = some 0 := by decide +kernel
  have hl : ((run boot [.userinit 0, .dispatch 0]).k.proc 0).schedLevel = 1 := by decide +kernel
  rw [hw]
  refine ⟨released_of_free, ⟨held 0, (run boot [.userinit 0, .dispatch 0]).k⟩, ?_, rfl⟩
  simp only [Call.prog, Prog.bind_eq, run_bind, run_changeSchedLevel, hf, if_pos hl]
  rw [if_neg (by decide)]
  simp

end Xv6
