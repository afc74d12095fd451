/-
How long a process waits at the FCFS level.

update_wait_time measures the wait from arrival_time, which seven operations write and change_sched_level does not. A
call that raises a process also sets its arrival_time to the call's argument, and the argument of the system call is the
user's: a process that is lowered again then counts from there, even if that is far in the future.

- `Sys.Timely`: a call that finds a process due has an argument between 0 and the clock; the clock stays below 2^31; pids
  are fresh.
- `Waits i t p`: while the process of slot i has been waiting since clock value t, its arrival time is at most t, a call
  that is past raising it cannot set it later, and from t + 800 on the timer's call does not get past slot i.

Results:
- `waiting_step`: what a step can do to a process that waits before and after it.
- `aging_bound`: when the timer's call returns, no process has waited for 800 ticks, if every step was Timely.
- `future_argument_starves`: init calls update_wait_time(1000000000), and its child waits for 800 ticks.
-/
import Xv6.Proc.Aging

namespace Xv6

open LockProg Runs Option

variable {s : Sys} {c : Cpu} {op : Op} {i : Slot} {t : Tab} {l : Label} {m : ℕ}

/-! ## What a step does to a waiting process -/

/-- the fields that decide the queue, and the arrival time -/
def Task.core (x : Task) : ProcState × Int × Int × Int × Int := (x.state, x.pid, x.cls, x.level, x.arrival)

/-- the label changes such a field of a RUNNABLE process in slot i -/
def Label.touches (i : Slot) : Label → Prop
  | .run _ j _ | .setDeadline j | .setLevel j _ | .arrive j _ => j = i
  | _ => False

theorem core_apply (hc : t.can l) (hn : ¬ l.touches i) (h : (t.task i).state = .runnable) :
    ((t.apply l).task i).core = (t.task i).core := by
  by_cases e : l.slot = some i
  swap
  · rw [apply_task_ne e]
  cases l <;> simp only [Label.slot, some.injEq, reduceCtorEq] at e <;> subst e <;>
    simp_all [Tab.can, Tab.apply, Label.touches, Task.core]

theorem labels_arrive {n : Int} (h : s.labels op t (.arrive i n)) :
    t = s.k.tab ∧ ∃ c, op = .age c ∧ s.agingOf c = some ⟨n, .resume i⟩ := by
  cases op <;> simp [Sys.labels, Pass, Resume, WaitRound, Farewell, Woken] at h ⊢
  obtain ⟨ht, ⟨m, ph⟩, ha, rfl, rfl⟩ := h
  exact ⟨ht, ha⟩

/-- a label that touches slot i is the first of its step -/
theorem labels_touches (h : s.labels op t l) (hl : l.touches i) (hd : ∀ c, op ≠ .dispatch c) :
    t = s.k.tab ∧ ∀ c j n, l ≠ .run c j n := by
  cases l with
  | run d j n => obtain ⟨d, e⟩ := labels_run h; exact absurd e (hd d)
  | setDeadline j => exact ⟨(labels_setDeadline h).choose_spec.choose_spec.choose_spec.2.1, by simp⟩
  | setLevel j n => exact ⟨(labels_setLevel h).1, by simp⟩
  | arrive j n => exact ⟨(labels_arrive h).1, by simp⟩
  | _ => exact absurd hl id

theorem touches_state (hl : l.touches i) (hr : ∀ c j n, l ≠ .run c j n) :
    ((t.apply l).task i).state = (t.task i).state := by
  cases l with
  | run d j n => exact absurd rfl (hr d j n)
  | setDeadline j | setLevel j n | arrive j n => obtain rfl : j = i := hl; simp [Tab.apply]
  | _ => exact absurd hl id

/-- what a step other than a dispatch does to a RUNNABLE process: at most one label touches it -/
theorem step_core (h : s.Ok) (h' : (step s op).Ok) (hd : ∀ c, op ≠ .dispatch c)
    (hr : (s.k.tab.task i).state = .runnable) : ((step s op).k.tab.task i).core = (s.k.tab.task i).core ∨
      ∃ l, l.touches i ∧ s.labels op s.k.tab l ∧ s.k.tab.can l ∧
        ((step s op).k.tab.task i).core = ((s.k.tab.apply l).task i).core := by
  have state_of {x y : Task} (e : x.core = y.core) : x.state = y.state := congrArg Prod.fst e
  refine takes_inv (P := fun u => (u.task i).core = (s.k.tab.task i).core ∨ ∃ l, l.touches i ∧ s.labels op s.k.tab l ∧
    s.k.tab.can l ∧ (u.task i).core = ((s.k.tab.apply l).task i).core) (fun u l hl hc hu => ?_) (step_takes h h') (.inl rfl)
  by_cases ht : l.touches i
  · obtain ⟨rfl, -⟩ := labels_touches hl ht hd
    exact .inr ⟨l, ht, hl, hc, rfl⟩
  · have hru : (u.task i).state = .runnable := by
      rcases hu with hu | ⟨m, hm, hml, -, hu⟩
      · rw [state_of hu, hr]
      · rw [state_of hu, touches_state hm (labels_touches hml hm hd).2, hr]
    have hk : ((table.apply u l).task i).core = (u.task i).core := core_apply hc ht hru
    rw [hk]
    exact hu

/-- **A process that waits at the FCFS level before and after a step** keeps its pid, and its arrival time is written by
a call of update_wait_time only. -/
theorem waiting_step (h : s.Ok) (h' : (step s op).Ok) (hq : (s.k.tab.task i).inFcfs)
    (hq' : ((step s op).k.tab.task i).inFcfs) : ((step s op).k.tab.task i).pid = (s.k.tab.task i).pid ∧
      (((step s op).k.tab.task i).arrival = (s.k.tab.task i).arrival ∨
        ∃ c n, op = .age c ∧ s.agingOf c = some ⟨n, .resume i⟩ ∧ ((step s op).k.tab.task i).arrival = n) := by
  have same (e : ((step s op).k.tab.task i).core = (s.k.tab.task i).core) :
      ((step s op).k.tab.task i).pid = (s.k.tab.task i).pid ∧
        ((step s op).k.tab.task i).arrival = (s.k.tab.task i).arrival := by
    simp only [Task.core, Prod.mk.injEq] at e
    exact ⟨e.2.1, e.2.2.2.2⟩
  by_cases hd : ∃ c, op = .dispatch c
  · obtain ⟨c, rfl⟩ := hd
    obtain ⟨-, e | ⟨j, -, -, ht, hj, -⟩⟩ := dispatch_cases h c
    · rw [e]; exact ⟨rfl, .inl rfl⟩
    · have hne : j ≠ i := by
        rintro rfl
        exact hj hq'.1
      have e : ((step s (.dispatch c)).k.tab.task i).core = (s.k.tab.task i).core := by
        refine takes_inv (P := fun u => (u.task i).core = (s.k.tab.task i).core) (fun u l hl hc hu => ?_) ht rfl
        have hru : (u.task i).state = .runnable := (congrArg Prod.fst hu).trans hq.1
        refine (core_apply hc ?_ hru).trans hu
        rcases hl with rfl | rfl | ⟨⟨m, rfl⟩ | rfl, -⟩
        · exact hne
        all_goals exact id
      exact ⟨(same e).1, .inl (same e).2⟩
  rcases step_core h h' (not_exists.1 hd) hq.1 with e | ⟨l, ht, hl, hc, e⟩
  · exact ⟨(same e).1, .inl (same e).2⟩
  obtain ⟨hs, hcl, hlv⟩ := hq
  obtain ⟨hs', hcl', hlv'⟩ := hq'
  simp only [Task.core, Prod.mk.injEq] at e
  cases l with
  | run d j n => exact absurd rfl ((labels_touches hl ht (not_exists.1 hd)).2 d j n)
  | setDeadline j =>
    obtain rfl : j = i := ht
    have : ((s.k.tab.apply (.setDeadline j)).task j).cls = 1 := by simp [Tab.apply]
    rw [this, hcl'] at e
    omega
  | setLevel j n =>
    obtain rfl : j = i := ht
    have h1 : ((s.k.tab.apply (.setLevel j n)).task j).level = n := by simp [Tab.apply]
    rw [h1, hlv'] at e
    exact absurd (hlv.trans e.2.2.2.1) hc.2
  | arrive j n =>
    obtain rfl : j = i := ht
    obtain ⟨-, c, rfl, ha⟩ := labels_arrive hl
    exact ⟨by rw [e.2.1]; simp [Tab.apply], .inr ⟨c, n, rfl, ha, by rw [e.2.2.2.2]; simp [Tab.apply]⟩⟩
  | _ => exact absurd ht id

/-! ## Clock values -/

/-- the clock stays below 2^31, and a call that finds a process due has an argument between 0 and the clock -/
def Sys.InTime (s : Sys) : Op → Prop
  | .tick => s.k.ticks + 1 < 2 ^ 31
  | .age c => ∀ a ∈ s.agingOf c, a.phase = .start → s.k.tab.firstDue a.osTicks slots ≠ none →
      0 ≤ a.osTicks ∧ a.osTicks ≤ s.k.ticks
  | _ => True

instance (s : Sys) : (op : Op) → Decidable (s.InTime op)
  | .tick => inferInstanceAs (Decidable (s.k.ticks + 1 < 2 ^ 31))
  | .age _ => inferInstanceAs (Decidable (∀ a ∈ s.agingOf _, _ → _ → _))
  | .userinit _ | .forkAlloc _ | .forkFail _ | .forkCopy _ | .forkFinish _ | .dispatch _ | .yield _ | .sleep _ _
  | .wakeup _ _ | .kill _ _ | .exit _ | .wait _ | .exec _ _ | .setDeadline _ _ _ | .changeLevel _ _ _
  | .updateWaitTime _ _ | .account _ | .fault _ => .isTrue trivial

def Sys.Timely (s : Sys) (op : Op) : Prop := s.FreshPid op ∧ s.InTime op

instance (s : Sys) (op : Op) : Decidable (s.Timely op) := inferInstanceAs (Decidable (s.FreshPid op ∧ s.InTime op))

/-- x is a clock value that has been reached -/
def Past (t : ℕ) (x : Int) : Prop := 0 ≤ x ∧ x ≤ t

theorem Past.mono {t u : ℕ} {x : Int} (h : Past t x) (hu : t ≤ u) : Past u x := ⟨h.1, h.2.trans (by exact_mod_cast hu)⟩

structure Sys.Dated (s : Sys) : Prop where
  clock : s.OneClock
  bound : s.k.ticks < 2 ^ 31
  /-- CPU 0 handles one tick at a time -/
  now : ∀ a, s.irq 0 = some a → a.osTicks = s.k.ticks
  stamp : ∀ i, (s.k.tab.task i).state = .runnable → Past s.k.ticks (s.k.tab.task i).arrival
  calls : ∀ q a, s.call q = some a → a.phase ≠ .start → Past s.k.ticks a.osTicks

theorem apply_ticks (h : l ≠ .tick) : (t.apply l).ticks = t.ticks := by
  cases l <;> simp only [Tab.apply] <;> first | rfl | simp | skip
  case execed i => split_ifs <;> rfl
  case tick => exact absurd rfl h

theorem labels_tick (h : s.labels op t .tick) : op = .tick := by
  cases op <;> simp [Sys.labels, Pass, Resume, WaitRound, Farewell, Woken] at h ⊢

/-- a label stamps with the clock, or leaves the stamps of RUNNABLE processes -/
theorem past_apply (hc : t.can l) (hl : l ≠ .tick) (hb : t.ticks < 2 ^ 31)
    (ha : ∀ i n, l = .arrive i n → Past t.ticks n)
    (h : ∀ i, (t.task i).state = .runnable → Past t.ticks (t.task i).arrival) (i : Slot)
    (hr : ((t.apply l).task i).state = .runnable) : Past t.ticks ((t.apply l).task i).arrival := by
  have hnow : Past t.ticks (int32 t.ticks) := by
    rw [int32_eq (by omega) (by exact_mod_cast hb)]
    exact ⟨by omega, le_rfl⟩
  by_cases e : l.slot = some i
  swap
  · rw [apply_task_ne e] at hr ⊢; exact h i hr
  cases l <;> simp only [Label.slot, some.injEq, reduceCtorEq] at e <;> subst e
  case execed j =>
    simp only [Tab.apply] at hr ⊢
    split_ifs at hr ⊢
    · simpa using h j (by simpa using hr)
    · exact h j hr
  case arrive j n => simpa [Tab.apply] using ha j n rfl
  all_goals simp [Tab.apply] at hr ⊢
  all_goals first | exact hnow | exact h _ hr

/-- only the clock moves the clock -/
theorem step_ticks (h : s.Ok) (h' : (step s op).Ok) (ht : op ≠ .tick) : (step s op).k.ticks = s.k.ticks :=
  takes_inv (P := fun u => u.ticks = s.k.tab.ticks)
    (fun u l hl _ hu => (apply_ticks (by rintro rfl; exact ht (labels_tick hl))).trans hu) (step_takes h h') rfl

theorem step_stamp (h : s.Ok) (h' : (step s op).Ok) (hD : s.Dated) (ht : op ≠ .tick) (i : Slot)
    (hr : ((step s op).k.tab.task i).state = .runnable) : Past s.k.ticks ((step s op).k.tab.task i).arrival := by
  have key := takes_inv (P := fun u => u.ticks = s.k.tab.ticks ∧
      ∀ i, (u.task i).state = .runnable → Past u.ticks (u.task i).arrival) (fun u l hl hc hu => ?_) (step_takes h h')
    ⟨rfl, hD.stamp⟩
  · have := key.2 i hr
    rwa [key.1] at this
  have hne : l ≠ .tick := by rintro rfl; exact ht (labels_tick hl)
  have htick : (table.apply u l).ticks = u.ticks := apply_ticks hne
  refine ⟨htick.trans hu.1, ?_⟩
  rw [htick]
  refine past_apply hc hne (by rw [hu.1]; exact hD.bound) (fun i n e => ?_) hu.2
  subst e
  obtain ⟨-, c, -, ha⟩ := labels_arrive hl
  rw [hu.1]
  exact hD.calls _ _ (agingOf_some hD.clock ha).2.1 (by simp)

/-- a call past its start is there before any step that is not its own -/
theorem call_old (hop : op.ages = false) {q : Caller} {a : Aging} (hq : (step s op).call q = some a) (ha : a.phase ≠ .start) :
    s.call q = some a := by
  rcases step_call (s := s) op hop q with e | ⟨-, n, e⟩
  · exact e.symm.trans hq
  · obtain rfl := some.inj (e.symm.trans hq)
    exact absurd rfl ha

theorem step_dated (h : s.Ok) (h' : (step s op).Ok) (hD : s.Dated) (hT : s.InTime op) : (step s op).Dated := by
  by_cases ht : op = .tick
  · subst ht
    by_cases hr : s.ready 0
    swap
    · rw [step, if_neg hr]; exact hD
    have hu : s.Unlocked .tick := (step_free_iff h).1 (by rw [h'.locks]; rfl)
    have hst := step_tick h.locks hr (hu hr)
    have hT' : s.k.ticks + 1 < 2 ^ 31 := hT
    have hticks : (step s .tick).k.ticks = s.k.ticks + 1 := by
      rw [hst]
      exact uint32_eq (by omega)
    have hle : s.k.ticks ≤ (step s .tick).k.ticks := by omega
    refine ⟨step_clock hD.clock rfl, by omega, fun a ha => ?_, fun i hi => ?_, fun q a hq hs => ?_⟩
    · rw [hst] at ha hticks ⊢
      have e : (⟨int32 s.k.ticked.ticks, .start⟩ : Aging) = a := by simpa [Sys.setIrq] using ha
      subst e
      rw [hticks]
      have e2 : s.k.ticked.ticks = s.k.ticks + 1 := uint32_eq (by omega)
      rw [e2]
      exact int32_eq (by omega) (by exact_mod_cast hT')
    · have e : (step s .tick).k.tab.task = s.k.tab.task := by rw [hst]; rfl
      rw [e] at hi ⊢
      exact (hD.stamp i hi).mono hle
    · exact (hD.calls q a (call_old rfl hq hs) hs).mono hle
  have hticks := step_ticks h h' ht
  have hstamp (i : Slot) (hi : ((step s op).k.tab.task i).state = .runnable) :
      Past (step s op).k.ticks ((step s op).k.tab.task i).arrival := by
    rw [hticks]; exact step_stamp h h' hD ht i hi
  by_cases hop : op.ages = false
  · have hirq : (step s op).irq = s.irq := step_irq ht (by rintro c rfl; cases hop)
    refine ⟨step_clock hD.clock hop, by rw [hticks]; exact hD.bound, ?_, hstamp, fun q a hq hs => ?_⟩
    · rw [hirq, hticks]; exact hD.now
    · rw [hticks]
      exact hD.calls q a (call_old hop hq hs) hs
  cases op with
  | age c =>
    cases ha : s.agingOf c with
    | none => simp only [step, ha]; exact hD
    | some a =>
      obtain ⟨-, hclock, hcall, -⟩ := step_age h hD.clock ha ((step_free_iff h).1 (by rw [h'.locks]; rfl))
      have hown := (agingOf_some hD.clock ha).2.1
      refine ⟨hclock, by rw [hticks]; exact hD.bound, fun b hb => ?_, hstamp, fun q b hb hs => ?_⟩
      · have hb' : (step s (.age c)).call none = some b := hb
        rw [hcall] at hb'
        rw [hticks]
        split_ifs at hb' with e
        · rw [(next_left hb').1]
          rw [← e] at hown
          exact hD.now a hown
        · exact hD.now b hb'
      · rw [hcall] at hb
        rw [hticks]
        split_ifs at hb with e
        · rw [(next_left hb).1]
          by_cases hph : a.phase = .start
          · refine hT a ha hph fun hnone => ?_
            obtain ⟨n, ph⟩ := a
            obtain rfl : ph = .start := hph
            have hnone' : s.k.tab.firstDue n slots = none := hnone
            simp [Aging.next, Aging.writes, hnone'] at hb
          · exact hD.calls _ a hown hph
        · exact hD.calls q b hb hs
  | _ => exact absurd rfl hop

/-! ## A process that keeps waiting -/

/-- the timer's call has not passed slot i: the process there, with pid p, is still to be raised -/
def Aging.before (i : Slot) (p : Int) (a : Aging) : Prop :=
  match a.phase with
  | .start => True
  | .window j => j ≤ i
  | .raise j pid => j ≤ i ∧ (j = i → pid = p)
  | .resume j => j < i

/-- the process of slot i, with pid p, has been waiting since clock value t -/
structure Waits (i : Slot) (t : ℕ) (p : Int) (s : Sys) : Prop where
  queued : (s.k.tab.task i).inFcfs
  pid : (s.k.tab.task i).pid = p
  since : Past t (s.k.tab.task i).arrival
  raise : ∀ q n pid, s.call q = some ⟨n, .raise i pid⟩ → Past t n ∨ pid = p
  resume : ∀ q n, s.call q = some ⟨n, .resume i⟩ → Past t n
  timer : (t : Int) + agingThreshold ≤ s.k.ticks → ∀ a, s.irq 0 = some a → a.before i p

/-- a process that has waited for the threshold is due -/
theorem due_of_waits {t : ℕ} {n : Int} {x : Task} (hq : x.inFcfs) (ha : Past t x.arrival) (hn : n < 2 ^ 31)
    (ht : (t : Int) + agingThreshold ≤ n) : x.due n := by
  obtain ⟨h0, h1⟩ := ha
  simp only [agingThreshold] at ht
  refine ⟨hq.1, hq.2.1, hq.2.2, ?_⟩
  rw [int32_eq (by omega) (by omega)]
  simp only [agingThreshold]
  omega

theorem slots_drop (n : ℕ) (h : n < NPROC) : slots.drop n = ⟨n, h⟩ :: slotsAfter ⟨n, h⟩ := by
  unfold slotsAfter slots
  rw [List.drop_eq_getElem_cons (by simpa using h)]
  simp

/-- a scan that starts at or before slot i does not get past it while it is due -/
theorem firstDue_le {n : Int} (hd : (t.task i).due n) (hm : m ≤ i.val) :
    ∃ j, t.firstDue n (slots.drop m) = some j ∧ j ≤ i := by
  have hlt : m < NPROC := lt_of_le_of_lt hm i.isLt
  induction h : i.val - m generalizing m with
  | zero =>
    obtain rfl : m = i.val := by omega
    exact ⟨i, by simp [slots_drop _ hlt, Tab.firstDue, hd], le_rfl⟩
  | succ d ih =>
    by_cases hx : (t.task ⟨m, hlt⟩).due n
    · exact ⟨⟨m, hlt⟩, by simp [slots_drop _ hlt, Tab.firstDue, hx], hm⟩
    · obtain ⟨j, hj, hle⟩ := ih (m := m + 1) (by omega) (by omega) (by omega)
      refine ⟨j, ?_, hle⟩
      rw [slots_drop _ hlt]
      simp only [Tab.firstDue, List.find?_cons, hx, decide_false]
      exact hj

/-- the timer's call does not get past a process that is due -/
theorem next_before {a : Aging} {p : Int} (hp : (t.task i).pid = p) (hb : a.before i p)
    (hd : (t.task i).due a.osTicks) (hn : ∀ pid, a.phase = .raise i pid → pid ≠ p) :
    ∃ b, a.next t = some b ∧ b.before i p := by
  obtain ⟨n, ph⟩ := a
  cases ph with
  | start =>
    obtain ⟨j, hj, hle⟩ := firstDue_le hd (Nat.zero_le _)
    exact ⟨⟨n, .window j⟩, by simpa [Aging.next, Aging.writes] using hj, hle⟩
  | window j => exact ⟨⟨n, .raise j (t.task j).pid⟩, rfl, hb, by rintro rfl; exact hp⟩
  | raise j pid =>
    refine ⟨⟨n, .resume j⟩, rfl, lt_of_le_of_ne hb.1 ?_⟩
    rintro rfl
    exact hn pid rfl (hb.2 rfl)
  | resume j =>
    have hlt : j.val < i.val := hb
    have hne : i ≠ j := fun e => by rw [e] at hlt; omega
    have hd' : ((t.apply (.arrive j n)).task i).due n := by simpa [Tab.apply, hne] using hd
    obtain ⟨m, hm, hle⟩ := firstDue_le hd' (Nat.succ_le_of_lt hlt)
    exact ⟨⟨n, .window m⟩, by simpa [Aging.next, Aging.writes, slotsAfter] using hm, hle⟩

/-- raising the process under its own pid takes it out of the queue -/
theorem raise_dequeues (h : s.Ok) (hap : s.k.tab.Apart) {n p : Int} (ha : s.agingOf c = some ⟨n, .raise i p⟩)
    (hq : (s.k.tab.task i).inFcfs) (hp : (s.k.tab.task i).pid = p) : ¬ ((step s (.age c)).k.tab.task i).inFcfs := by
  have hs : (s.k.proc i).state = .runnable := hq.1
  have hf : s.k.findPid p = some i := by
    rw [← hp]
    exact findPid_self hap (by simp [hs])
  have hl : (s.k.proc i).schedLevel = 2 := hq.2.2
  have ht : (step s (.age c)).k.tab = s.k.tab.apply (.setLevel i 1) := by
    rw [step_age_raise h.locks ha, hf]
    simp only [if_neg (show (s.k.proc i).schedLevel ≠ 1 by omega)]
    simp only [Sys.k, setAging_w]
    exact tab_setLevel i (.inl rfl)
  intro hq'
  have hlev := hq'.2.2
  simp [ht, Tab.apply] at hlev

/-- **One step of a waiting process.** -/
theorem waits_step {t : ℕ} {p : Int} (h : s.Ok) (h' : (step s op).Ok) (hap : s.k.tab.Apart) (hD : s.Dated)
    (hD' : (step s op).Dated) (hW : Waits i t p s) (hq : ((step s op).k.tab.task i).inFcfs) :
    Waits i t p (step s op) ∧
      ((t : Int) + agingThreshold ≤ s.k.ticks → s.irq 0 ≠ none → (step s op).irq 0 ≠ none) := by
  obtain ⟨hpid, harr⟩ := waiting_step h h' hW.queued hq
  have hsince : Past t ((step s op).k.tab.task i).arrival := by
    rcases harr with e | ⟨c, n, rfl, ha, e⟩
    · rw [e]; exact hW.since
    · rw [e]; exact hW.resume _ n (agingOf_some hD.clock ha).2.1
  by_cases hop : op.ages = false
  · refine ⟨⟨hq, hpid.trans hW.pid, hsince, fun q n pid hc => hW.raise q n pid (call_old hop hc (by simp)),
      fun q n hc => hW.resume q n (call_old hop hc (by simp)), fun hlate a ha => ?_⟩, fun _ hirq => ?_⟩
    · by_cases hs : a.phase = .start
      · simp only [Aging.before, hs]
      · have ha' : s.irq 0 = some a := call_old hop (q := none) ha hs
        have hticks : (step s op).k.ticks = s.k.ticks := by
          by_cases ht : op = .tick
          · have hnr : ¬ s.ready 0 := fun hr => by rw [hr.2] at ha'; cases ha'
            rw [ht, step, if_neg hnr]
          · exact step_ticks h h' ht
        rw [hticks] at hlate
        exact hW.timer hlate a ha'
    · rcases step_call (s := s) op hop none with e | ⟨e, -⟩
      · exact fun hn => hirq (e.symm.trans hn)
      · exact absurd e hirq
  cases op with
  | age c =>
    cases ha : s.agingOf c with
    | none => simp only [step, ha]; exact ⟨hW, fun _ => id⟩
    | some a =>
      obtain ⟨-, -, hcall, -⟩ := step_age h hD.clock ha ((step_free_iff h).1 (by rw [h'.locks]; rfl))
      have hown := (agingOf_some hD.clock ha).2.1
      have hticks := step_ticks h h' (by simp)
      have hraise (pid : Int) (e : a.phase = .raise i pid) : pid ≠ p := by
        rintro rfl
        exact raise_dequeues h hap (n := a.osTicks) (by rw [ha, ← e]) hW.queued hW.pid hq
      -- from the threshold on, the timer's call has its next section at or before slot i
      have htimer (hlate : (t : Int) + agingThreshold ≤ s.k.ticks) (b : Aging) (hb : s.irq 0 = some b) :
          ∃ b', (step s (.age c)).irq 0 = some b' ∧ b'.before i p := by
        by_cases e : s.caller c = none
        · obtain rfl : a = b := by
            rw [e] at hown
            exact some.inj (hown.symm.trans hb)
          have hnow := hD.now a hb
          have hbound := hD.bound
          have hd := due_of_waits (n := a.osTicks) hW.queued hW.since (by omega) (by omega)
          obtain ⟨b', hb', hbef⟩ := next_before hW.pid (hW.timer hlate a hb) hd hraise
          refine ⟨b', ?_, hbef⟩
          have := hcall none
          rwa [if_pos e.symm, hb'] at this
        · refine ⟨b, ?_, hW.timer hlate b hb⟩
          have := hcall none
          rw [if_neg (Ne.symm e)] at this
          exact this.trans hb
      refine ⟨⟨hq, hpid.trans hW.pid, hsince, fun q n pid hc => ?_, fun q n hc => ?_, fun hlate b hb => ?_⟩,
        fun hlate hirq hn => ?_⟩
      · rw [hcall] at hc
        split_ifs at hc with e
        · obtain ⟨m, ph⟩ := a
          cases ph with
          | window j =>
            simp only [Aging.next, some.injEq, Aging.mk.injEq, Phase.raise.injEq] at hc
            obtain ⟨-, rfl, rfl⟩ := hc
            exact .inr hW.pid
          | _ => simp [Aging.next] at hc
        · exact hW.raise q n pid hc
      · rw [hcall] at hc
        split_ifs at hc with e
        · obtain ⟨m, ph⟩ := a
          cases ph with
          | raise j pid =>
            simp only [Aging.next, some.injEq, Aging.mk.injEq, Phase.resume.injEq] at hc
            obtain ⟨rfl, rfl⟩ := hc
            exact (hW.raise _ _ pid hown).resolve_right (hraise pid rfl)
          | _ => simp [Aging.next] at hc
        · exact hW.resume q n hc
      · rw [hticks] at hlate
        cases hirq : s.irq 0 with
        | none =>
          have hb' : (step s (.age c)).call none = some b := hb
          rw [hcall] at hb'
          split_ifs at hb' with e
          · rw [← e] at hown
            cases hirq.symm.trans hown
          · cases hirq.symm.trans hb'
        | some b0 =>
          obtain ⟨b', hb', hbef⟩ := htimer hlate b0 hirq
          obtain rfl := some.inj (hb'.symm.trans hb)
          exact hbef
      · obtain ⟨b0, hb0⟩ := ne_none_iff_exists'.1 hirq
        obtain ⟨b', hb', -⟩ := htimer hlate b0 hb0
        rw [hb'] at hn; cases hn
  | _ => exact absurd rfl hop

/-! ## Runs -/

/-- what a run of Timely steps keeps while ptable.lock is free -/
structure Sys.Aged (s : Sys) : Prop where
  ok : s.Ok
  apart : s.k.tab.Apart
  dated : s.Dated

theorem step_aged (h : s.Aged) (hT : s.Timely op) (hf : (step s op).w.locks .ptable = none) : (step s op).Aged :=
  have h' := step_ok h.ok hf
  ⟨h', step_apart h.ok h' hT.1 h.apart, step_dated h.ok h' h.dated hT.2⟩

theorem boot_aged : boot.Aged where
  ok := boot_ok
  apart := ⟨fun _ hi => absurd rfl hi, fun _ _ _ hi => absurd rfl hi⟩
  dated := ⟨fun _ _ => rfl, by decide, fun a h => (nomatch h), fun i h => (nomatch h),
    fun q a h => by cases q <;> simp [boot, Sys.call, Frame.call] at h⟩

theorem run_aged {ops : List Op} (h : s.Aged) (ha : Along step Sys.Timely s ops)
    (hf : (run s ops).w.locks .ptable = none) : (run s ops).Aged := by
  induction ops generalizing s with
  | nil => exact h
  | cons op ops ih => exact ih (step_aged h ha.1 (free_of_run_free (s := step s op) hf)) ha.2 hf

theorem waits_run {t : ℕ} {p : Int} {ops : List Op} (h : s.Aged) (hW : Waits i t p s) (ha : Along step Sys.Timely s ops)
    (hq : Throughout step (fun s => (s.k.tab.task i).inFcfs) s ops) (hf : (run s ops).w.locks .ptable = none) :
    Waits i t p (run s ops) := by
  induction ops generalizing s with
  | nil => exact hW
  | cons op ops ih =>
    have h' := step_aged h ha.1 (free_of_run_free (s := step s op) hf)
    exact ih h' (waits_step h.ok h'.ok h.apart h.dated h'.dated hW
      (throughout_head (P := fun s : Sys => (s.k.tab.task i).inFcfs) hq.2)).1 ha.2 hq.2 hf

/-- a process of the FCFS queue starts to wait now -/
theorem waits_now (h : s.Dated) (hq : (s.k.tab.task i).inFcfs) : Waits i s.k.ticks (s.k.tab.task i).pid s where
  queued := hq
  pid := rfl
  since := h.stamp i hq.1
  raise q n pid hc := .inl (h.calls q _ hc (by simp))
  resume q n hc := h.calls q _ hc (by simp)
  timer hlate := by simp only [agingThreshold] at hlate; omega

/-- a call does not return while ptable.lock is held -/
theorem section_held {a : Aging} {w w' : KWorld} {r : Option Phase} (hl : w.locks .ptable ≠ none)
    (h : (agingSection a).run c w = .ok r w') : r ≠ none := by
  obtain ⟨n, ph⟩ := a
  cases ph with
  | start => exact absurd h (needs_acquire _ c w r w' hl)
  | window i =>
    rw [run_agingWindow] at h
    simp only [Outcome.ok.injEq] at h
    simp [← h.1]
  | raise i pid =>
    refine absurd h (needs_bind ?_ c w r w' hl)
    rw [changeSchedLevel, if_neg (by decide)]
    exact needs_acquire _
  | resume i => exact absurd h (needs_acquire _ c w r w' hl)

theorem setAging_irq_some {b : Aging} (h : s.irq 0 ≠ none) : (s.setAging 0 (some b)).irq 0 ≠ none := by
  obtain ⟨a, ha⟩ := ne_none_iff_exists'.1 h
  simp [Sys.setAging, ha, Sys.setIrq]

theorem irq_held (h : s.w.locks .ptable ≠ none) (hi : s.irq 0 ≠ none) : (step s (.age 0)).irq 0 ≠ none := by
  simp only [step]
  cases ha : s.agingOf 0 with
  | none => exact hi
  | some a =>
    simp only [Sys.exec]
    split
    · rename_i r w hr
      obtain ⟨ph, rfl⟩ := ne_none_iff_exists'.1 (section_held h hr)
      exact setAging_irq_some hi
    · exact hi
    · exact hi

/-- a section that raises a process is not the last one -/
theorem unlocked_of_returned (h : s.Ok) (hi : s.irq 0 ≠ none) (hr : (step s (.age 0)).irq 0 = none) :
    s.Unlocked (.age 0) := by
  intro pid hp j hj hlev
  obtain ⟨n, i, ha⟩ := raising_some.1 hp
  rw [step_age_raise h.locks ha, hj] at hr
  simp only [hlev, if_true] at hr
  exact setAging_irq_some (by exact hi) hr

/-- **The aging bound.** In every run of Timely steps: when the timer's call of update_wait_time returns, a process that
has been RUNNABLE at the FCFS level in every state since `run boot pre` has waited less than 800 ticks. -/
theorem aging_bound (pre mid : List Op) (i : Slot) (h : Along step Sys.Timely boot (pre ++ mid ++ [.age 0]))
    (hcall : (run boot (pre ++ mid)).irq 0 ≠ none) (hret : (run boot (pre ++ mid ++ [.age 0])).irq 0 = none)
    (hq : Throughout step (fun s => (s.k.proc i).runnable ∧ (s.k.proc i).fcfs) (run boot pre) (mid ++ [.age 0])) :
    ((run boot (pre ++ mid ++ [.age 0])).k.ticks : Int) < (run boot pre).k.ticks + agingThreshold := by
  have hmid : run boot (pre ++ mid) = run (run boot pre) mid := by simp [run]
  have hend : run boot (pre ++ mid ++ [.age 0]) = step (run (run boot pre) mid) (.age 0) := by simp [run]
  obtain ⟨hall, hT, -⟩ := along_append.1 h
  obtain ⟨hpre, hrest⟩ := along_append.1 hall
  obtain ⟨hqm, hqe⟩ := throughout_append.1 hq
  rw [show (pre ++ mid).foldl step boot = run (run boot pre) mid from hmid] at hT
  rw [hmid] at hcall
  rw [hend] at hret ⊢
  -- the call returned, so ptable.lock was free before its last section and is free after it
  have hf : (run (run boot pre) mid).w.locks .ptable = none := by
    by_contra hn
    exact irq_held hn hcall hret
  have hP := run_aged boot_aged hpre (free_of_run_free hf)
  have hM := run_aged hP hrest hf
  have hW := waits_run hP
    (waits_now (i := i) hP.dated (throughout_head (P := fun s : Sys => (s.k.tab.task i).inFcfs) hqm)) hrest hqm hf
  by_contra hlate
  have hf' : (step (run (run boot pre) mid) (.age 0)).w.locks .ptable = none :=
    (step_free_iff hM.ok).2 (unlocked_of_returned hM.ok hcall hret)
  have hE := step_aged hM hT hf'
  refine (waits_step hM.ok hE.ok hM.apart hM.dated hE.dated hW hqe.2).2 ?_ hcall hret
  rw [← step_ticks hM.ok hE.ok (by simp)]
  omega

/-- init forks a child, which waits at the FCFS level while the clock ticks -/
def waitingRun : List Op := [.userinit 0, .dispatch 0, .forkAlloc 0, .forkCopy 0, .forkFinish 0]

theorem aging_bound_waitingRun : Along step Sys.Timely boot (waitingRun ++ [.tick] ++ [.age 0]) ∧
    ((run boot (waitingRun ++ [.tick] ++ [.age 0])).k.ticks : Int) < (run boot waitingRun).k.ticks + agingThreshold :=
  ⟨by decide +kernel, aging_bound waitingRun [.tick] 1 (by decide +kernel) (by decide +kernel) (by decide +kernel)
    (by decide +kernel)⟩

/-! ## A call from the future -/

/-- n ticks, each with its call of update_wait_time -/
def rounds : ℕ → List Op
  | 0 => []
  | n + 1 => .tick :: .age 0 :: rounds n

/-- CPU 0 is free for the clock, nobody sleeps on it, and nobody is due before clock value m -/
structure Sys.Unhurried (m : ℕ) (s : Sys) : Prop where
  locks : s.w.locks = free
  ready : s.ready 0
  awake : ∀ i, ¬ s.k.tickSleeper i
  early : ∀ n : ℕ, n ≤ m → s.k.tab.firstDue n slots = none

theorem unhurried_round (h : s.Unhurried m) (hm : s.k.ticks + 1 ≤ m) (hb : m < 2 ^ 31) :
    (step s .tick).irq 0 ≠ none ∧ (step s .tick).k.tab.task = s.k.tab.task ∧
      (step (step s .tick) (.age 0)).Unhurried m ∧ (step (step s .tick) (.age 0)).k.tab.task = s.k.tab.task ∧
      (step (step s .tick) (.age 0)).k.ticks = s.k.ticks + 1 := by
  have ht := step_tick h.locks h.ready h.awake
  have hticks : s.k.ticked.ticks = s.k.ticks + 1 := uint32_eq (by omega)
  have hint : int32 s.k.ticked.ticks = ((s.k.ticks + 1 : ℕ) : Int) := by
    rw [hticks]; exact int32_eq (by omega) (by omega)
  rw [hint] at ht
  have hag : (step s .tick).agingOf 0 = some ⟨((s.k.ticks + 1 : ℕ) : Int), .start⟩ := by
    rw [ht]
    simp [Sys.agingOf, Sys.setIrq, Sys.to, h.ready.1]
  obtain ⟨k', hk, hst⟩ := step_age_start (by rw [ht]; rfl) hag
  have htab : (step s .tick).k.tab = s.k.tab.apply .tick := by rw [ht]; rfl
  have hnone : (step s .tick).k.tab.firstDue ((s.k.ticks + 1 : ℕ) : Int) slots = none := by
    rw [htab]; exact h.early _ hm
  rw [hnone, map_none] at hst
  have hw : (step (step s .tick) (.age 0)).w = ⟨free, k'⟩ := by rw [hst, setAging_w]; rfl
  have htab' : (step (step s .tick) (.age 0)).k.tab = s.k.tab.apply .tick := by
    rw [Sys.k, hw]; exact hk.trans htab
  have htask : (step (step s .tick) (.age 0)).k.tab.task = s.k.tab.task := by rw [htab']; rfl
  refine ⟨by rw [ht]; simp [Sys.setIrq], by rw [htab]; rfl, ⟨by rw [hw], ?_, fun i hi => ?_, fun n hn => ?_⟩, htask, ?_⟩
  · rw [hst, ht]
    simp [Sys.ready, Sys.setAging, Sys.setIrq, Sys.to, h.ready.1]
  · refine h.awake i ⟨?_, ?_⟩
    · have e := congrArg Task.state (congrFun htask i)
      exact e.symm.trans hi.1
    · have e := congrArg Task.chan (congrFun htask i)
      exact e.symm.trans hi.2
  · rw [htab']; exact h.early n hn
  · have e : (step (step s .tick) (.age 0)).k.tab.ticks = s.k.ticked.ticks := by rw [htab']; rfl
    exact e.trans hticks

/-- after n rounds the table is as before and the clock has moved on by n -/
theorem unhurried_rounds {P : (Slot → Task) → Prop} (n : ℕ) (h : s.Unhurried m) (hm : s.k.ticks + n ≤ m)
    (hb : m < 2 ^ 31) (hP : P s.k.tab.task) : Throughout step (fun s => P s.k.tab.task) s (rounds n) ∧
      (run s (rounds n)).Unhurried m ∧ (run s (rounds n)).k.tab.task = s.k.tab.task ∧
      (run s (rounds n)).k.ticks = s.k.ticks + n := by
  induction n generalizing s with
  | zero => exact ⟨hP, h, rfl, rfl⟩
  | succ n ih =>
    obtain ⟨-, htask, hU, htask', hticks⟩ := unhurried_round h (by omega) hb
    obtain ⟨hT, hU', e, ht⟩ := ih hU (by omega) (by rw [htask']; exact hP)
    have hP1 : P (step s .tick).k.tab.task := by rw [htask]; exact hP
    exact ⟨⟨hP, hP1, hT⟩, hU', e.trans htask', ht.trans (by omega)⟩

/-- a process that waits goes on waiting through n more ticks -/
theorem waits_through {pre : List Op} (n : ℕ) (h : (run boot pre).Unhurried m)
    (hm : (run boot pre).k.ticks + n + 1 ≤ m) (hb : m < 2 ^ 31) (hq : ((run boot pre).k.tab.task i).inFcfs) :
    ∃ mid, (run boot (pre ++ mid)).irq 0 ≠ none ∧ (run boot (pre ++ mid ++ [.age 0])).irq 0 = none ∧
      Throughout step (fun s => (s.k.tab.task i).inFcfs) (run boot pre) (mid ++ [.age 0]) ∧
      (run boot (pre ++ mid ++ [.age 0])).k.ticks = (run boot pre).k.ticks + n + 1 := by
  obtain ⟨hT, hU, htask, ht⟩ := unhurried_rounds (P := fun f => (f i).inFcfs) n h (by omega) hb hq
  obtain ⟨h1, h2, h3, h4, h5⟩ := unhurried_round hU (by omega) hb
  have hq0 : ((run (run boot pre) (rounds n)).k.tab.task i).inFcfs := by rw [htask]; exact hq
  have hq1 : ((step (run (run boot pre) (rounds n)) .tick).k.tab.task i).inFcfs := by rw [h2, htask]; exact hq
  have hq2 : ((step (step (run (run boot pre) (rounds n)) .tick) (.age 0)).k.tab.task i).inFcfs := by
    rw [h4, htask]; exact hq
  have e1 : run boot (pre ++ (rounds n ++ [.tick])) = step (run (run boot pre) (rounds n)) .tick := by simp [run]
  have e2 : run boot (pre ++ (rounds n ++ [.tick]) ++ [.age 0]) =
      step (step (run (run boot pre) (rounds n)) .tick) (.age 0) := by simp [run]
  refine ⟨rounds n ++ [.tick], ?_⟩
  rw [e1, e2, List.append_assoc]
  exact ⟨h1, h3.ready.2, throughout_append.2 ⟨hT, hq0, hq1, hq2⟩, by omega⟩

/-- init raises its child with a clock value from the far future, and lowers it again -/
def farFutureRun : List Op :=
  [.userinit 0, .dispatch 0, .forkAlloc 0, .forkCopy 0, .forkFinish 0, .updateWaitTime 0 1000000000, .age 0, .age 0,
    .age 0, .age 0, .changeLevel 0 2 2]

theorem farFuture_unhurried : (run boot farFutureRun).Unhurried 800 where
  locks := (run_ok (by decide +kernel)).locks
  ready := by decide +kernel
  awake := by decide +kernel
  early n hn := by
    have harr : ∀ i, ((run boot farFutureRun).k.tab.task i).state = .runnable →
        ((run boot farFutureRun).k.tab.task i).arrival = 1000000000 := by decide +kernel
    refine List.find?_eq_none.2 fun i _ hi => ?_
    obtain ⟨hs, -, -, hd⟩ : ((run boot farFutureRun).k.tab.task i).due n := of_decide_eq_true hi
    rw [harr i hs, int32_eq (by omega) (by omega)] at hd
    simp only [agingThreshold] at hd
    omega

/-- the child in slot 1 waits at the FCFS level through 800 ticks, and the timer's call returns -/
theorem future_argument_starves : ∃ mid : List Op,
    (run boot (farFutureRun ++ mid)).irq 0 ≠ none ∧ (run boot (farFutureRun ++ mid ++ [.age 0])).irq 0 = none ∧
      Throughout step (fun s => (s.k.proc 1).runnable ∧ (s.k.proc 1).fcfs) (run boot farFutureRun) (mid ++ [.age 0]) ∧
      (run boot (farFutureRun ++ mid ++ [.age 0])).k.ticks = (run boot farFutureRun).k.ticks + 799 + 1 := by
  have h0 : (run boot farFutureRun).k.ticks + 799 + 1 ≤ 800 := by decide +kernel
  exact waits_through 799 farFuture_unhurried h0 (by norm_num) (by decide +kernel)

end Xv6
