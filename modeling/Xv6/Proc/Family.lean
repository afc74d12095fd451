/-
Parents and children.

exit passes the children of the dying process to init, wakes the parent and becomes ZOMBIE in one critical section; wait
scans, reaps or goes to sleep in one.

Results:
- `family_apply`: every label keeps the family: a process other than init has a parent, and a process that sleeps in wait
  has no ZOMBIE child.
- `step_log`: a call of wait returns the pid of a ZOMBIE child that its caller has at that moment, and frees its slot.
- `step_history`: a pid that wait has returned belongs to no process any more and is not given out again.
- `family_and_reaping`: in every state with ptable.lock free, with fewer than 2^31 forks.
-/
import Xv6.Proc.Pids

namespace Xv6

open LockProg Runs List

variable {s : Sys} {c : Cpu} {op : Op} {t : Tab} {l : Label} {i j : Slot}

/-! ## The family -/

/-- the task sleeps inside wait -/
def Task.inWait (x : Task) : Prop := x.state = .sleeping ∧ x.context = .wait

/-- the states of a process that has a family -/
def Task.related (x : Task) : Prop := x.live ∨ x.state = .zombie

structure Tab.Family (t : Tab) : Prop where
  parented : ∀ i, (t.task i).related → t.init ≠ some i → (t.task i).parent ≠ none
  channel : ∀ i, (t.task i).inWait → (t.task i).chan = .proc i
  reaped : ∀ i j, (t.task i).inWait → (t.task j).parent = some i → (t.task j).state ≠ .zombie

/-- init changes in userinit only -/
theorem apply_init (hn : ∀ j, l ≠ .seed j) : (t.apply l).init = t.init := by
  by_cases ha : l.allocates
  · cases l <;> simp only [Label.allocates] at ha
    case alloc => rfl
    case seed j => exact absurd rfl (hn j)
  · exact (apply_nextpid ha).2

theorem parented_apply (h : t.Ok) (hc : t.can l) (hf : t.Family) (i : Slot) (hl : ((t.apply l).task i).related)
    (hi : (t.apply l).init ≠ some i) : ((t.apply l).task i).parent ≠ none := by
  by_cases hseed : ∃ j, l = .seed j
  · -- before userinit there is no process
    obtain ⟨j, rfl⟩ := hseed
    have hij : i ≠ j := by rintro rfl; exact hi rfl
    rw [apply_off rfl _ hij] at hl
    simp [Task.related, Task.live, h.empty hc.2 i] at hl
  rw [apply_init (by simpa using hseed)] at hi
  by_cases e : l.slot = some i
  swap
  · rw [apply_task_ne e] at hl ⊢; exact hf.parented i hl hi
  have keep (h1 : (t.task i).related) (h2 : ((t.apply l).task i).parent = (t.task i).parent) :
      ((t.apply l).task i).parent ≠ none := h2 ▸ hf.parented i h1 hi
  cases l <;> simp only [Label.slot, Option.some.injEq, reduceCtorEq] at e <;> subst e
  case alloc => simp [Tab.apply, Task.related, Task.live] at hl
  case abort => simp [Tab.apply, Task.related, Task.live] at hl
  case reap => simp [Tab.apply, Task.related, Task.live] at hl
  case seed j => exact absurd ⟨j, rfl⟩ hseed
  case adopt => simp [Tab.apply]
  case inherit i =>
    obtain ⟨⟨j, hj, -⟩, -⟩ := hc
    exact fun e => h.started (i := i) (fun hu => by simp [h.orphan i hu] at hj) (by simpa [Tab.apply] using e)
  case ready i =>
    rcases hc.2 with hs | ⟨-, hp, -⟩
    · exact keep (.inl (.inl hs)) (by simp [Tab.apply])
    · simpa [Tab.apply] using hp
  case run => exact keep (.inl (.inr (.inl hc.1))) (by simp [Tab.apply])
  case yield => exact keep (.inl (.inr (.inr hc.1))) (by simp [Tab.apply])
  case block => exact keep (.inl (.inr (.inr hc.1))) (by simp [Tab.apply])
  case die => exact keep (.inl (.inr (.inr hc.1))) (by simp [Tab.apply])
  case clear => exact keep (.inl (.inr (.inr hc))) (by simp [Tab.apply])
  case execed => exact keep (.inl (.inr (.inr hc))) (by simp only [Tab.apply]; split_ifs <;> simp)
  all_goals exact keep (by simpa [Tab.apply, Task.related, Task.live] using hl) (by simp [Tab.apply])

/-- a task that sleeps in wait has just gone to sleep, or slept before -/
theorem inWait_apply (hc : t.can l) (hw : ((t.apply l).task i).inWait) :
    (∃ c ch, l = .block c i ch .wait) ∨ (t.task i).inWait ∧ ((t.apply l).task i).chan = (t.task i).chan := by
  by_cases e : l.slot = some i
  swap
  · rw [apply_task_ne e] at hw ⊢; exact .inr ⟨hw, rfl⟩
  unfold Task.inWait at hw ⊢
  cases l <;> simp only [Label.slot, Option.some.injEq, reduceCtorEq] at e <;> subst e
  case block c i ch ctx =>
    obtain rfl : ctx = .wait := by simpa [Tab.apply] using hw
    exact .inl ⟨c, ch, rfl⟩
  case execed =>
    right
    simp only [Tab.can] at hc
    simp only [Tab.apply] at hw ⊢
    split_ifs at hw ⊢ <;> simp_all
  all_goals right; simp_all [Tab.can, Tab.apply]

/-- a ZOMBIE child has just died, has just been passed to init, or was one before -/
theorem zombie_apply (hc : t.can l) (hz : ((t.apply l).task j).state = .zombie)
    (hp : ((t.apply l).task j).parent = some i) :
    (∃ c, l = .die c j) ∧ (t.task j).parent = some i ∨ l = .inherit j ∧ (t.task j).state = .zombie ∧ t.init = some i ∨
      (t.task j).state = .zombie ∧ (t.task j).parent = some i := by
  by_cases e : l.slot = some j
  swap
  · rw [apply_task_ne e] at hz hp; exact .inr (.inr ⟨hz, hp⟩)
  cases l <;> simp only [Label.slot, Option.some.injEq, reduceCtorEq] at e <;> subst e
  case die c j => exact .inl ⟨⟨c, rfl⟩, by simpa [Tab.apply] using hp⟩
  case inherit j => exact .inr (.inl ⟨rfl, by simpa [Tab.apply] using hz, by simpa [Tab.apply] using hp⟩)
  case execed =>
    right; right
    simp only [Tab.can] at hc
    simp only [Tab.apply] at hz hp
    split_ifs at hz hp <;> simp_all
  all_goals right; right; simp_all [Tab.can, Tab.apply]

/-- **Every label keeps the family.** -/
theorem family_apply (h : t.Ok) (hc : t.can l) (hf : t.Family) : (t.apply l).Family := by
  refine ⟨parented_apply h hc hf, fun i hw => ?_, fun i j hw hp hz => ?_⟩
  · rcases inWait_apply hc hw with ⟨c, ch, rfl⟩ | ⟨hw, e⟩
    · obtain ⟨-, -, ⟨-, rfl, -⟩ | ⟨hx, -⟩⟩ := hc
      · simp [Tab.apply]
      · cases hx
    · rw [e]; exact hf.channel i hw
  · have waiting (hw : (t.task i).inWait) : t.waiting i := ⟨hw.1, hf.channel i hw⟩
    rcases inWait_apply hc hw with ⟨c, ch, rfl⟩ | ⟨hw0, -⟩
    · -- it has just scanned its children
      obtain ⟨-, -, ⟨-, -, hno⟩ | ⟨hx, -⟩⟩ := hc
      · have hij : j ≠ i := by rintro rfl; simp [Tab.apply] at hz
        rw [apply_off rfl _ hij] at hp hz
        exact hno j hp hz
      · cases hx
    · rcases zombie_apply hc hz hp with ⟨⟨c, rfl⟩, hp0⟩ | ⟨rfl, hz0, hi⟩ | ⟨hz0, hp0⟩
      · exact hc.2.2.2.2 i hp0 (waiting hw0)
      · exact hc.2 hz0 i hi (waiting hw0)
      · exact hf.reaped i j hw0 hp0 hz0

theorem family_boot : boot.k.tab.Family where
  parented i h := by simp [boot, Sys.k, Kernel.boot, Proc.zero, Proc.task, Task.related, Task.live] at h
  channel i h := by simp [boot, Sys.k, Kernel.boot, Proc.zero, Proc.task, Task.inWait] at h
  reaped i j h := by simp [boot, Sys.k, Kernel.boot, Proc.zero, Proc.task, Task.inWait] at h

theorem step_family (h : s.Ok) (h' : (step s op).Ok) (hf : s.k.tab.Family) : (step s op).k.tab.Family :=
  (takes_inv (P := fun t => t.Ok ∧ t.Family) (fun _ _ _ hc hP => ⟨ok_apply hP.1 hc, family_apply hP.1 hc hP.2⟩)
    (step_takes h h') ⟨h.tab, hf⟩).2

theorem family_run {ops : List Op} (hf : (run boot ops).w.locks .ptable = none) : (run boot ops).k.tab.Family :=
  (run_inv (C := fun _ _ => True) (P := fun s => s.k.tab.Family) (fun _ _ _ h hP h' => step_family h h' hP)
    (along_of_mem (fun _ _ _ => trivial) boot) boot_ok family_boot hf).2

/-! ## What wait returns -/

/-- the step makes wait return the pid of slot j to the process in slot i: j is its ZOMBIE child, and is freed -/
def Sys.reaps (s : Sys) (op : Op) (i j : Slot) : Prop :=
  (s.k.proc j).parent = some i ∧ (s.k.proc j).state = .zombie ∧ ((step s op).k.proc j).state = .unused ∧
    (step s op).log = s.log ++ [.waited i (s.k.proc j).pid]

/-- a round of wait that returns a pid has reaped a ZOMBIE child -/
theorem waited_ret {k : Kernel} {r : Int} (h : (k.waited c i).1 = .ret r) (hr : r ≠ -1) :
    ∃ j, (k.proc j).parent = some i ∧ (k.proc j).state = .zombie ∧ (k.proc j).pid = r ∧
      ((k.waited c i).2.proc j).state = .unused := by
  unfold Kernel.waited at h ⊢
  rcases hw : k.waitScan i slots false with ⟨b, _ | j⟩ <;> simp only [hw] at h ⊢
  · split_ifs at h
    exact absurd (Exit.ret.inj h).symm hr
  · obtain ⟨hp, hz⟩ := waitScan_zombie hw
    exact ⟨j, hp, hz, Exit.ret.inj h, by simp [Proc.reaped]⟩

/-- what logWait adds after a round of wait in the kernel k -/
theorem logWait_waited {k : Kernel} {u : Sys} (hu : u.k = (k.waited c i).2) :
    (u.logWait i (k.waited c i).1).log = u.log ∨
      ∃ j, (k.proc j).parent = some i ∧ (k.proc j).state = .zombie ∧ (u.k.proc j).state = .unused ∧
        (u.logWait i (k.waited c i).1).log = u.log ++ [.waited i (k.proc j).pid] := by
  cases e : (k.waited c i).1 with
  | switched => exact .inl rfl
  | ret r =>
    by_cases hr : r = -1
    · exact .inl (by rw [Sys.logWait, if_pos hr])
    · obtain ⟨j, hp, hz, rfl, hj⟩ := waited_ret e hr
      exact .inr ⟨j, hp, hz, hu ▸ hj, by rw [Sys.logWait, if_neg hr]; rfl⟩

theorem exec_log {α : Type} {p : K α} {f : α → Sys → Sys} (hf : ∀ a s, (f a s).log = s.log) :
    (s.exec c p f).log = s.log := by
  unfold Sys.exec
  split
  · rw [hf]
  · rfl
  · rfl

theorem setAging_log (a : Option Aging) : (s.setAging c a).log = s.log := by
  unfold Sys.setAging
  split
  · rfl
  · split <;> rfl

theorem dispatched_task_ne {k : Kernel} (h : j ≠ i) : ((k.dispatched c i).proc j).task = (k.proc j).task := by
  have e := congrFun (congrArg Tab.task (tab_dispatched (k := k) (c := c) i)) j
  rwa [apply_off rfl _ h] at e

/-- the process that a pass of the scheduler resumes inside wait -/
theorem dispatch_log (h : s.Ok) (c : Cpu) : (step s (.dispatch c)).log = s.log ∨ ∃ i j, s.reaps (.dispatch c) i j := by
  by_cases hg : s.ready c ∧ (s.k.cpu c).proc = none
  swap
  · rw [step, if_neg hg]; exact .inl rfl
  cases hi : (s.k.choose (s.k.cpu c).nextrrp).1 with
  | none => rw [step_dispatch_none h.locks hg hi]; exact .inl rfl
  | some i =>
    have hx : (s.k.proc i).context ≠ .exit := h.tab.entered i (.inr (.inl (choose_runnable hi)))
    have hst := step_dispatch_some h.locks hg hi hx
    split_ifs at hst with hw
    swap
    · rw [hst]; exact .inl rfl
    have ht := dispatched_task (k := s.k) (c := c) i
    have hres : (s.k.dispatched c i).resume c i =
        ((s.k.dispatched c i).modProc i fun p => { p with chan := .null }).waited c i := by
      have hctx : ((s.k.dispatched c i).proc i).context = .wait := (congrArg Task.context ht).trans hw
      rw [Kernel.resume, hctx]
    rw [hres] at hst
    rcases logWait_waited (u := s.to (((s.k.dispatched c i).modProc i fun p => { p with chan := .null }).waited c i).2) rfl
      with e | ⟨j, hp, hz, hu, e⟩
    · rw [hst]; exact .inl e
    · -- the child's fields are those of the state before: the pass writes slot i only, and slot i runs
      have hji : j ≠ i := by
        rintro rfl
        have hr : ((s.k.dispatched c j).proc j).state = .running := congrArg Task.state ht
        simp [hr] at hz
      rw [modProc_ne _ _ _ hji] at hp hz e
      have hj := dispatched_task_ne (k := s.k) (c := c) hji
      have hpid : ((s.k.dispatched c i).proc j).pid = (s.k.proc j).pid := congrArg Task.pid hj
      refine .inr ⟨i, j, (congrArg Task.parent hj).symm.trans hp, (congrArg Task.state hj).symm.trans hz, ?_, ?_⟩
      · rw [hst, Sys.k, logWait_w]; exact hu
      · rw [hst, e, hpid]; rfl

/-- **What a step adds to the log.** -/
theorem step_log (h : s.Ok) (op : Op) : (step s op).log = s.log ∨ (∃ i pid, (step s op).log = s.log ++ [.forked i pid]) ∨
    ∃ i j, s.reaps op i j := by
  cases op with
  | dispatch c => exact (dispatch_log h c).imp_right Or.inr
  | wait c =>
    cases hc : s.idle c with
    | none => left; simp only [step, hc]
    | some i =>
      have hst := step_wait h.locks hc (h.running (idle_some hc).1)
      rcases logWait_waited (k := s.k) (c := c) (u := s.to (s.k.waited c i).2) rfl with e | ⟨j, hp, hz, hu, e⟩
      · rw [hst]; exact .inl e
      · refine .inr (.inr ⟨i, j, hp, hz, ?_, ?_⟩)
        · rw [hst, Sys.k, logWait_w]; exact hu
        · rw [hst]; exact e
  | forkFinish c =>
    rcases copied_cases s c with e | ⟨i, np, hc, hf⟩
    · rw [e]; exact .inl rfl
    · rw [step_forkFinish h.locks hc hf]
      exact .inr (.inl ⟨i, _, rfl⟩)
  | _ =>
    left
    simp only [step]
    repeat' split
    all_goals first
      | rfl
      | exact exec_log fun _ _ => rfl
      | exact exec_log fun _ _ => setAging_log _
      | exact exec_log fun r _ => by cases r <;> rfl

/-! ## Runs -/

def Event.reaped : Event → Option Int
  | .waited _ pid => some pid
  | .forked _ _ => none

/-- the pids that wait has returned -/
def Sys.reaped (s : Sys) : List Int := s.log.filterMap Event.reaped

/-- what wait has returned: numbers given out before, of no process any more, each once -/
structure Sys.History (s : Sys) (m : ℕ) : Prop where
  past : ∀ q ∈ s.reaped, ∃ n : ℕ, n ≤ m ∧ q = int32 n
  gone : ∀ q ∈ s.reaped, ∀ i, (s.k.proc i).state ≠ .unused → (s.k.proc i).pid ≠ q
  once : s.reaped.Nodup

/-- a process has its pid from before the step, or has just been given the next one -/
theorem step_pid (h : s.Ok) (h' : (step s op).Ok) (i : Slot) (hi : ((step s op).k.proc i).state ≠ .unused) :
    ((step s op).k.proc i).pid = (s.k.proc i).pid ∧ (s.k.proc i).state ≠ .unused ∨
      ((step s op).k.proc i).pid = s.k.nextpid := by
  rcases step_allocates h h' with ht | ⟨l, hl, -, ht, -⟩
  · left
    -- a slot in use after the labels was in use before them, with the same pid
    refine takes_rel (P := fun _ => True) (r := fun t u => (u.task i).state ≠ .unused →
      (u.task i).pid = (t.task i).pid ∧ (t.task i).state ≠ .unused) (fun t hs => ⟨rfl, hs⟩) ?_ ?_ ht trivial hi
    · intro t u v htu huv hv
      obtain ⟨e1, hu⟩ := huv hv
      obtain ⟨e2, ht⟩ := htu hu
      exact ⟨e1.trans e2, ht⟩
    · intro t l hn hc _
      refine ⟨trivial, fun hs => ?_⟩
      rcases apply_pid hc hn i with ⟨e, hst⟩ | ⟨-, hu⟩
      · exact ⟨e, hst hs⟩
      · exact absurd hu hs
  · obtain ⟨j, hp, -, hne, -⟩ := allocates_pid (t := s.k.tab) hl
    have hi' : (((step s op).k.tab).task i).state ≠ .unused := hi
    have e (x : Slot) : ((step s op).k.proc x).pid = ((s.k.tab.apply l).task x).pid := by rw [← ht]; rfl
    by_cases hij : i = j
    · right; rw [e, hij]; exact hp
    · left
      rw [e, hne i hij]
      rw [ht, hne i hij] at hi'
      exact ⟨rfl, hi'⟩

/-- **One step** of the history. -/
theorem step_history (h : s.Ok) (h' : (step s op).Ok) (hap : s.k.tab.Apart) {m m' : ℕ} (hm : s.k.tab.Numbered m)
    (hmm : m ≤ m') (hlt : m + 1 < 2 ^ 32) (hH : s.History m) : (step s op).History m' := by
  have old (q : Int) (hq : ∃ n : ℕ, n ≤ m ∧ q = int32 n) (i : Slot) : s.k.nextpid ≠ q := by
    obtain ⟨n, hn, rfl⟩ := hq
    intro e
    have := int32_inj (by omega) (by omega) (by omega) (by omega) (hm.next.symm.trans e)
    omega
  have same (e : (step s op).reaped = s.reaped) : (step s op).History m' := by
    refine ⟨fun q hq => ?_, fun q hq i hi => ?_, e ▸ hH.once⟩
    · obtain ⟨n, hn, rfl⟩ := hH.past q (e ▸ hq)
      exact ⟨n, by omega, rfl⟩
    · rcases step_pid h h' i hi with ⟨ep, hi⟩ | ep
      · rw [ep]; exact hH.gone q (e ▸ hq) i hi
      · rw [ep]; exact old q (hH.past q (e ▸ hq)) i
  rcases step_log h op with e | ⟨i, pid, e⟩ | ⟨i, j, -, hz, hu, e⟩
  · exact same (by rw [Sys.reaped, e]; rfl)
  · exact same (by rw [Sys.reaped, e, filterMap_append]; simp [Event.reaped, Sys.reaped])
  have e' : (step s op).reaped = s.reaped ++ [(s.k.proc j).pid] := by
    rw [Sys.reaped, e, filterMap_append]; rfl
  have hused : (s.k.proc j).state ≠ .unused := by rw [hz]; decide
  have hnum : ∃ n : ℕ, n ≤ m ∧ (s.k.proc j).pid = int32 n := by
    rcases hm.past j with h0 | ⟨n, -, hn, hp⟩
    · exact absurd h0 (hap.named j hused)
    · exact ⟨n, hn, hp⟩
  refine ⟨fun q hq => ?_, fun q hq l hl => ?_, ?_⟩
  · rw [e', mem_append, mem_singleton] at hq
    rcases hq with hq | rfl
    · obtain ⟨n, hn, rfl⟩ := hH.past q hq
      exact ⟨n, by omega, rfl⟩
    · obtain ⟨n, hn, hp⟩ := hnum
      exact ⟨n, by omega, hp⟩
  · rw [e', mem_append, mem_singleton] at hq
    rcases step_pid h h' l hl with ⟨ep, hl0⟩ | ep <;> rw [ep]
    · rcases hq with hq | rfl
      · exact hH.gone q hq l hl0
      · -- only the reaped slot had the pid
        intro ep'
        obtain rfl : l = j := hap.apart l j ep' (hap.named l hl0)
        exact hl hu
    · rcases hq with hq | rfl
      · exact old q (hH.past q hq) l
      · exact old _ hnum l
  · rw [e', nodup_append]
    refine ⟨hH.once, nodup_singleton _, fun q hq b hb => ?_⟩
    rw [mem_singleton] at hb
    rw [hb]
    exact (hH.gone q hq j hused).symm

theorem history_run {m n : ℕ} {ops : List Op} (h : s.Ok) (hap : s.k.tab.Apart) (hm : s.k.tab.Numbered m) (hmn : m ≤ n + 1)
    (hn : n + forks s ops < 2 ^ 31) (hf : (run s ops).w.locks .ptable = none) (hH : s.History m) :
    (run s ops).reaped.Nodup := by
  induction ops generalizing s m n with
  | nil => exact hH.once
  | cons op ops ih =>
    simp only [forks] at hn
    have h' := step_ok h (free_of_run_free (s := step s op) hf)
    obtain ⟨hfresh, m', hm', hmm, hmn'⟩ := step_numbered h h' hm hmn (by omega)
    exact ih h' (step_apart h h' hfresh hap) hm' hmn' (by omega) hf (step_history h h' hap hm hmm (by omega) hH)

/-- **Family and reaping.** In every state with ptable.lock free, after fewer than 2^31 forks: a process other than init
has a parent that still exists; a process that sleeps in wait has no ZOMBIE child; wait has returned no pid twice; and
each pid it returned was, at that step, the pid of a ZOMBIE child of its caller. -/
theorem family_and_reaping (ops : List Op) (hn : forks boot ops < 2 ^ 31)
    (hf : (run boot ops).w.locks .ptable = none) :
    (∀ i, ((run boot ops).k.tab.task i).related → (run boot ops).k.initproc ≠ some i →
      ∃ j, ((run boot ops).k.proc i).parent = some j ∧ ((run boot ops).k.proc j).state ≠ .unused ∧
        ((run boot ops).k.proc j).state ≠ .zombie) ∧
    (∀ i, ((run boot ops).k.proc i).state = .sleeping → ((run boot ops).k.proc i).context = .wait →
      ∀ j, ((run boot ops).k.proc j).parent = some i → ((run boot ops).k.proc j).state ≠ .zombie) ∧
    (run boot ops).reaped.Nodup ∧
    ∀ pre op post, ops = pre ++ op :: post → ∀ i pid, .waited i pid ∉ (run boot pre).log →
      .waited i pid ∈ (run boot (pre ++ [op])).log →
        ∃ j, ((run boot pre).k.proc j).pid = pid ∧ ((run boot pre).k.proc j).state = .zombie ∧
          ((run boot pre).k.proc j).parent = some i := by
  have hok := run_ok hf
  have hfam := family_run hf
  refine ⟨fun i hi hinit => ?_, fun i hs hx j hp => hfam.reaped i j ⟨hs, hx⟩ hp, ?_, ?_⟩
  · obtain ⟨j, hj⟩ := Option.ne_none_iff_exists'.1 (hfam.parented i hi hinit)
    have hl : ((run boot ops).k.proc j).state = .sleeping ∨ ((run boot ops).k.proc j).state = .runnable ∨
        ((run boot ops).k.proc j).state = .running := hok.tab.parent i j hj
    refine ⟨j, hj, ?_, ?_⟩ <;> rcases hl with e | e | e <;> rw [e] <;> decide
  · refine history_run (m := 0) (n := 0) boot_ok ⟨fun _ hi => absurd rfl hi, fun _ _ _ hi => absurd rfl hi⟩ numbered_boot
      (by omega) (by omega) hf ⟨?_, ?_, ?_⟩ <;> simp [Sys.reaped, boot]
  · intro pre op post e i pid hold hnew
    subst e
    have hf0 : (run boot pre).w.locks .ptable = none := free_of_run_free (by rw [← run_append]; exact hf)
    have e1 : run boot (pre ++ [op]) = step (run boot pre) op := run_append ..
    rw [e1] at hnew
    rcases step_log (run_ok hf0) op with e | ⟨a, q, e⟩ | ⟨a, j, hp, hz, -, e⟩ <;> rw [e] at hnew
    · exact absurd hnew hold
    · simp [hold] at hnew
    · simp only [mem_append, hold, mem_singleton, false_or, Event.waited.injEq] at hnew
      obtain ⟨rfl, rfl⟩ := hnew
      exact ⟨j, rfl, hz, hp⟩

/-- init forks, waits, and reaps its child -/
def reapingRun : List Op :=
  [.userinit 0, .dispatch 0, .forkAlloc 0, .forkCopy 0, .forkFinish 0, .wait 0, .dispatch 0, .exit 0, .dispatch 0]

theorem family_and_reaping_reapingRun : (run boot reapingRun).log = [.forked 0 2, .waited 0 2] ∧
    (run boot reapingRun).reaped.Nodup :=
  ⟨by decide +kernel, (family_and_reaping reapingRun (by decide +kernel) (by decide +kernel)).2.2.1⟩

end Xv6
