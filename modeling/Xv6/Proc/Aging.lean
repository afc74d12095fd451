/-
update_wait_time with other CPUs in its windows.

The loop finds a process that is due with ptable.lock held, gives the lock up, and raises the process through
change_sched_level, which looks the pid up again under a new acquisition. In between, any other step can come.

- `Caller`: who is in the call, the timer interrupt of CPU 0 or a process; `Sys.call` is where the call is.
- `Sys.Spares`: no other CPU dispatches the process of a window, changes its level or gives it a deadline.
- `Phase.left`: how many critical sections a call still needs at most.

Results:
- `step_aims`: along steps that spare the windows, the process that a call is about to raise is still there.
- `aging_safe`: every section of a call then completes, and a call that takes its turns returns.
- `raised_twice_panics`: another CPU raises the process in the window, and the call panics.
-/
import Xv6.Proc.Counters
import Xv6.Proc.Pids

namespace Xv6

open LockProg Runs Option

/-! ## Calls in progress -/

/-- who is inside update_wait_time: CPU 0's timer interrupt (`none`), or a process -/
abbrev Caller := Option Slot

def Sys.call (s : Sys) : Caller → Option Aging
  | none => s.irq 0
  | some i => (s.frame i).call

/-- who is inside the call that CPU c works on -/
def Sys.caller (s : Sys) (c : Cpu) : Caller := if (s.irq c).isSome then none else (s.k.cpu c).proc

/-- only CPU 0 handles the clock -/
def Sys.OneClock (s : Sys) : Prop := ∀ c, c ≠ 0 → s.irq c = none

variable {s : Sys} {c : Cpu} {a : Aging} {q : Caller} {op : Op} {t : Tab}

/-- CPU c works on the call of its caller -/
theorem agingOf_some (h1 : s.OneClock) (h : s.agingOf c = some a) : s.panicked c = none ∧ s.call (s.caller c) = some a ∧
    (s.irq c = none → ∃ i, s.cur c = some i ∧ s.caller c = some i) := by
  unfold Sys.agingOf at h
  split_ifs at h with hp
  refine ⟨not_not.1 hp, ?_⟩
  cases hi : s.irq c with
  | some b =>
    obtain rfl : c = 0 := by
      by_contra hc
      rw [h1 c hc] at hi; cases hi
    rw [hi] at h
    simpa [Sys.caller, hi, Sys.call] using h
  | none =>
    rw [hi] at h
    simp only [bind_eq_some_iff] at h
    obtain ⟨i, hc, hf⟩ := h
    have e : s.caller c = some i := by simp [Sys.caller, hi, (cur_some hc).2]
    exact ⟨by rw [e]; exact hf, fun _ => ⟨i, hc, e⟩⟩

/-- moving CPU c's call on changes that call only -/
theorem setAging_call (s' : Sys) (h1 : s.OneClock) (ha : s.agingOf c = some a) (hi : s'.irq = s.irq)
    (hf : s'.frame = s.frame) (hc : s'.cur c = s.cur c) (b : Option Aging) (q : Caller) :
    (s'.setAging c b).call q = if q = s.caller c then b else s.call q := by
  obtain ⟨-, -, hcur⟩ := agingOf_some h1 ha
  unfold Sys.setAging
  cases hirq : s.irq c with
  | some x =>
    obtain rfl : c = 0 := by
      by_contra hc
      rw [h1 c hc] at hirq; cases hirq
    have e : s.caller 0 = none := by simp [Sys.caller, hirq]
    rw [hi, hirq, e]
    cases q with
    | none => simp [Sys.call, Sys.setIrq]
    | some j => simp [Sys.call, Sys.setIrq, hf]
  | none =>
    obtain ⟨i, hci, e⟩ := hcur hirq
    rw [hi, hirq, hc, hci, e]
    cases q with
    | none => simp [Sys.call, Sys.setFrame, hi]
    | some j =>
      by_cases hj : j = i
      · subst hj
        cases b <;> simp [Sys.call, Sys.setFrame, Frame.call]
      · simp [Sys.call, Sys.setFrame, hj, hf]

theorem setAging_irq (s' : Sys) (h1 : s'.OneClock) (b : Option Aging) : (s'.setAging c b).OneClock := by
  intro d hd
  unfold Sys.setAging
  cases hirq : s'.irq c with
  | some x =>
    obtain rfl : c = 0 := by
      by_contra hc
      rw [h1 c hc] at hirq; cases hirq
    simpa [Sys.setIrq, hd] using h1 d hd
  | none =>
    simp only
    split
    · exact h1 d hd
    · exact h1 d hd

@[simp] theorem setAging_panicked (b : Option Aging) : (s.setAging c b).panicked = s.panicked := by
  unfold Sys.setAging
  split
  · rfl
  · split <;> rfl

theorem exec_irq {α : Type} {p : K α} {f : α → Sys → Sys} (hf : ∀ a s, (f a s).irq = s.irq) :
    (s.exec c p f).irq = s.irq := by
  unfold Sys.exec
  split
  · rw [hf]
  · rfl
  · rfl

theorem logWait_irq (i : Slot) (e : Exit) : (s.logWait i e).irq = s.irq := by
  unfold Sys.logWait; split
  · split_ifs <;> rfl
  · rfl

/-- only the clock and update_wait_time itself touch the interrupt's call -/
theorem step_irq (ht : op ≠ .tick) (ha : ∀ c, op ≠ .age c) : (step s op).irq = s.irq := by
  cases op <;> simp only [step] <;> repeat' split
  all_goals first | rfl | exact exec_irq fun _ _ => rfl | exact exec_irq fun _ _ => logWait_irq .. | skip
  -- forkAlloc and dispatch, which look at the result, and the two exceptions
  · exact exec_irq fun r _ => by cases r <;> rfl
  · refine exec_irq fun r s' => ?_
    repeat' split
    all_goals first | rfl | exact logWait_irq ..
  · exact absurd rfl (ha _)
  · exact absurd rfl ht

theorem call_congr {s' : Sys} (hi : s'.irq = s.irq) (hf : s'.frame = s.frame) (q : Caller) : s'.call q = s.call q := by
  cases q <;> simp [Sys.call, hi, hf]

/-- a frame that is no call of update_wait_time replaces another one -/
theorem call_setFrame (s' : Sys) {i : Slot} {f : Frame} (hi : s'.irq = s.irq)
    (hs : s'.frame = Function.update s.frame i f) (hf : f.call = none) (hc : (s.frame i).call = none) (q : Caller) :
    s'.call q = s.call q := by
  cases q with
  | none => simp [Sys.call, hi]
  | some j =>
    by_cases e : j = i
    · subst e; simp [Sys.call, hs, hf, hc]
    · simp [Sys.call, hs, e]

def Op.ages : Op → Bool
  | .age _ => true
  | _ => false

/-- a step that is not part of a call leaves the calls in progress, and may start one -/
theorem step_call (op : Op) (hop : op.ages = false) (q : Caller) : (step s op).call q = s.call q ∨
    s.call q = none ∧ ∃ n, (step s op).call q = some ⟨n, .start⟩ := by
  cases op with
  | age c => cases hop
  | tick =>
    simp only [step]
    split_ifs with hr
    swap
    · exact .inl rfl
    unfold Sys.exec
    split
    · rename_i n w _
      cases q with
      | none => exact .inr ⟨hr.2, n, by simp [Sys.call, Sys.setIrq]⟩
      | some j => exact .inl rfl
    · exact .inl (call_congr rfl rfl q)
    · exact .inl rfl
  | updateWaitTime c n =>
    simp only [step]
    cases hc : s.idle c with
    | none => exact .inl rfl
    | some i =>
      cases q with
      | none => exact .inl rfl
      | some j =>
        by_cases e : j = i
        · subst e
          exact .inr ⟨by simp [Sys.call, (idle_some hc).2, Frame.call], int32 n,
            by simp [Sys.call, Sys.setFrame, Frame.call]⟩
        · exact .inl (by simp [Sys.call, Sys.setFrame, e])
  | forkAlloc c =>
    refine .inl ?_
    simp only [step]
    cases hc : s.idle c with
    | none => rfl
    | some i =>
      simp only [Sys.exec]
      split
      · rename_i r w _
        cases r with
        | none => exact call_congr rfl rfl q
        | some np => exact call_setFrame _ (i := i) (f := .forked np) (by rfl) (by rfl) rfl (by rw [(idle_some hc).2]; rfl) q
      · exact call_congr rfl rfl q
      · rfl
  | forkFail c =>
    refine .inl ?_
    rcases forked_cases s c with ⟨e, -⟩ | ⟨i, np, hc, hf⟩
    · rw [e]
    · rw [step_forkFail hc hf]
      exact call_setFrame _ (i := i) (f := .idle) (by rfl) (by rfl) rfl (by rw [hf]; rfl) q
  | forkCopy c =>
    refine .inl ?_
    rcases forked_cases s c with ⟨-, e⟩ | ⟨i, np, hc, hf⟩
    · rw [e]
    · rw [step_forkCopy hc hf]
      exact call_setFrame _ (i := i) (f := .copied np) (by rfl) (by rfl) rfl (by rw [hf]; rfl) q
  | forkFinish c =>
    refine .inl ?_
    rcases copied_cases s c with e | ⟨i, np, hc, hf⟩
    · rw [e]
    simp only [step, hc, hf, Sys.exec]
    split
    · exact call_setFrame _ (i := i) (f := .idle) (by rfl) (by rfl) rfl (by rw [hf]; rfl) q
    · exact call_congr rfl rfl q
    · rfl
  | _ => exact .inl (call_congr (step_irq (by simp) (by simp)) (step_frame id) q)

/-! ## What a section of the call does -/

/-- how many critical sections the call needs at most, this one included -/
def Phase.left : Phase → ℕ
  | .start => 3 * NPROC + 1
  | .window i => 3 * (NPROC - 1 - i.val) + 3
  | .raise i _ => 3 * (NPROC - 1 - i.val) + 2
  | .resume i => 3 * (NPROC - 1 - i.val) + 1

/-- the process the call is about to raise is still RUNNABLE at the FCFS level, and has the pid that was read -/
def Aging.Aims (t : Tab) (a : Aging) : Prop :=
  match a.phase with
  | .window i => (t.task i).inFcfs
  | .raise i pid => (t.task i).inFcfs ∧ (t.task i).pid = pid
  | _ => True

theorem mem_slotsAfter {i j : Slot} (h : j ∈ slotsAfter i) : i.val < j.val := by
  unfold slotsAfter slots at h
  obtain ⟨m, hm, e⟩ := List.mem_iff_getElem.1 h
  rw [List.getElem_drop, List.getElem_finRange] at e
  have := congrArg Fin.val e
  simp at this
  omega

theorem firstDue_some {n : Int} {is : List Slot} {i : Slot} (h : t.firstDue n is = some i) :
    i ∈ is ∧ (t.task i).inFcfs := by
  have hd : (t.task i).due n := by simpa using List.find?_some h
  exact ⟨List.mem_of_find?_eq_some h, hd.1, hd.2.1, hd.2.2.1⟩

/-- what a section other than change_sched_level writes to the table -/
def Aging.writes (t : Tab) (a : Aging) : Tab :=
  match a.phase with
  | .resume i => t.apply (.arrive i a.osTicks)
  | _ => t

/-- where the call is after its next section; `none`: it returned -/
def Aging.next (t : Tab) (a : Aging) : Option Aging :=
  match a.phase with
  | .start => ((a.writes t).firstDue a.osTicks slots).map fun i => ⟨a.osTicks, .window i⟩
  | .window i => some ⟨a.osTicks, .raise i (t.task i).pid⟩
  | .raise i _ => some ⟨a.osTicks, .resume i⟩
  | .resume i => ((a.writes t).firstDue a.osTicks (slotsAfter i)).map fun i => ⟨a.osTicks, .window i⟩

/-- **One section of a call.** It completes, leaves the other calls, and moves its own call on. -/
theorem step_age (h : s.Ok) (h1 : s.OneClock) (ha : s.agingOf c = some a) (hu : s.Unlocked (.age c)) :
    (step s (.age c)).panicked = s.panicked ∧ (step s (.age c)).OneClock ∧
      (∀ q, (step s (.age c)).call q = if q = s.caller c then a.next s.k.tab else s.call q) ∧
      ((∀ i pid, a.phase ≠ .raise i pid) → (step s (.age c)).k.tab = a.writes s.k.tab) := by
  have hcur {k' : Kernel} (ht : k'.tab.cpu = s.k.tab.cpu) : (s.to k').cur c = s.cur c := by
    have e : (k'.cpu c).proc = (s.k.cpu c).proc := congrFun ht c
    change (if s.ready c then (k'.cpu c).proc else none) = if s.ready c then (s.k.cpu c).proc else none
    rw [e]
  obtain ⟨n, ph⟩ := a
  cases ph with
  | start =>
    obtain ⟨k', ht, hst⟩ := step_age_start h.locks ha
    rw [hst]
    refine ⟨by simp [Sys.to], setAging_irq _ (by exact h1) _,
      setAging_call _ h1 ha (by rfl) (by rfl) (by exact hcur (by rw [ht])) _, fun _ => ?_⟩
    simp only [Sys.k, setAging_w, Sys.to]
    exact ht
  | window i =>
    rw [step_age_window ha]
    refine ⟨by simp, setAging_irq _ (by exact h1) _, setAging_call _ h1 ha rfl rfl rfl _, fun _ => ?_⟩
    simp only [Sys.k, setAging_w]
    rfl
  | raise i pid =>
    rw [step_age_raise h.locks ha]
    cases hf : s.k.findPid pid with
    | none => exact ⟨by simp, setAging_irq _ (by exact h1) _, setAging_call _ h1 ha rfl rfl rfl _, fun hn => absurd rfl (hn i pid)⟩
    | some j =>
      have hlev := hu pid (raising_some.2 ⟨n, i, ha⟩) j hf
      simp only [if_neg hlev]
      have ht : (s.k.setLevel j 1).tab.cpu = s.k.tab.cpu := by
        rw [tab_setLevel j (.inl rfl)]; simp [Tab.apply]
      exact ⟨by simp [Sys.to], setAging_irq _ (by exact h1) _,
        setAging_call _ h1 ha (by rfl) (by rfl) (by exact hcur ht) _, fun hn => absurd rfl (hn i pid)⟩
  | resume i =>
    obtain ⟨k', ht, hst⟩ := step_age_resume h.locks ha
    rw [hst]
    refine ⟨by simp [Sys.to], setAging_irq _ (by exact h1) _,
      setAging_call _ h1 ha (by rfl) (by rfl) (by exact hcur (by rw [ht]; rfl)) _, fun _ => ?_⟩
    simp only [Sys.k, setAging_w, Sys.to]
    exact ht

/-- a section brings the call closer to its end -/
theorem next_left {b : Aging} (h : b ∈ a.next t) : b.osTicks = a.osTicks ∧ b.phase.left < a.phase.left := by
  obtain ⟨n, ph⟩ := a
  cases ph with
  | start =>
    obtain ⟨j, -, rfl⟩ := map_eq_some_iff.1 h
    exact ⟨rfl, by simp only [Phase.left]; omega⟩
  | window i | raise i pid =>
    obtain rfl := some.inj h
    exact ⟨rfl, by simp only [Phase.left]; omega⟩
  | resume i =>
    obtain ⟨j, hj, rfl⟩ := map_eq_some_iff.1 h
    have hlt := mem_slotsAfter (firstDue_some hj).1
    exact ⟨rfl, by simp only [Phase.left]; omega⟩

/-- the process that a section finds is in the FCFS queue -/
theorem next_aims {t u : Tab} {b : Aging} (h : b ∈ a.next t) (hu : (∀ i pid, a.phase ≠ .raise i pid) → u = a.writes t)
    (hA : a.Aims t) : b.Aims u := by
  obtain ⟨n, ph⟩ := a
  cases ph with
  | start =>
    obtain ⟨j, hj, rfl⟩ := map_eq_some_iff.1 h
    rw [hu (by simp)]
    exact (firstDue_some hj).2
  | window i =>
    obtain rfl := some.inj h
    rw [hu (by simp)]
    exact ⟨hA, rfl⟩
  | raise i pid =>
    obtain rfl := some.inj h
    trivial
  | resume i =>
    obtain ⟨j, hj, rfl⟩ := map_eq_some_iff.1 h
    rw [hu (by simp)]
    exact (firstDue_some hj).2

/-! ## Steps that spare the windows -/

/-- the call is between finding the process in slot i and raising it -/
def Aging.targets (a : Aging) (i : Slot) : Prop :=
  match a.phase with
  | .window j | .raise j _ => j = i
  | _ => False

/-- a call other than that of `but` is about to raise the process in slot i -/
def Sys.windowed (s : Sys) (but : Option Caller) (i : Slot) : Prop :=
  ∃ q : Caller, some q ≠ but ∧ ∃ a ∈ s.call q, a.targets i

/-- no process of a window is dispatched, gets a deadline, or is given a level by anyone but the call itself -/
def Sys.Spares (s : Sys) : Op → Prop
  | .dispatch c => s.ready c ∧ (s.k.cpu c).proc = none → ∀ i ∈ (s.k.choose (s.k.cpu c).nextrrp).1, ¬ s.windowed none i
  | .setDeadline c pid d => s.ready c → 0 ≤ d → ∀ i ∈ s.k.findPid pid, ¬ s.windowed none i
  | .changeLevel c pid n => s.ready c → n = 1 ∨ n = 2 → ∀ i ∈ s.k.findPid pid, ¬ s.windowed none i
  | .age c => ∀ pid ∈ s.raising c, ∀ i ∈ s.k.findPid pid, ¬ s.windowed (some (s.caller c)) i
  | _ => True

instance (a : Aging) (i : Slot) : Decidable (a.targets i) :=
  match a with
  | ⟨_, .window j⟩ => inferInstanceAs (Decidable (j = i))
  | ⟨_, .raise j _⟩ => inferInstanceAs (Decidable (j = i))
  | ⟨_, .start⟩ => .isFalse id
  | ⟨_, .resume _⟩ => .isFalse id

instance (s : Sys) (but : Option Caller) (i : Slot) : Decidable (s.windowed but i) :=
  inferInstanceAs (Decidable (∃ q : Caller, some q ≠ but ∧ ∃ a ∈ s.call q, a.targets i))

instance (s : Sys) : (op : Op) → Decidable (s.Spares op)
  | .dispatch _ => inferInstanceAs (Decidable (_ → ∀ i ∈ (s.k.choose _).1, ¬ s.windowed none i))
  | .setDeadline _ _ _ => inferInstanceAs (Decidable (_ → _ → ∀ i ∈ s.k.findPid _, ¬ s.windowed none i))
  | .changeLevel _ _ _ => inferInstanceAs (Decidable (_ → _ → ∀ i ∈ s.k.findPid _, ¬ s.windowed none i))
  | .age _ => inferInstanceAs (Decidable (∀ pid ∈ s.raising _, ∀ i ∈ s.k.findPid pid, ¬ s.windowed _ i))
  | .userinit _ | .forkAlloc _ | .forkFail _ | .forkCopy _ | .forkFinish _ | .yield _ | .sleep _ _ | .wakeup _ _
  | .kill _ _ | .exit _ | .wait _ | .exec _ _ | .updateWaitTime _ _ | .tick | .account _ | .fault _ => .isTrue trivial

/-- the label takes the process in slot i out of the FCFS queue -/
def Label.upsets (i : Slot) : Label → Prop
  | .run _ j _ | .setDeadline j | .setLevel j _ => j = i
  | _ => False

theorem inFcfs_apply {l : Label} {i : Slot} (hc : t.can l) (hn : ¬ l.upsets i) (h : (t.task i).inFcfs) :
    ((t.apply l).task i).inFcfs ∧ ((t.apply l).task i).pid = (t.task i).pid := by
  by_cases e : l.slot = some i
  swap
  · rw [apply_task_ne e]; exact ⟨h, rfl⟩
  obtain ⟨hs, hcl, hlv⟩ := h
  cases l <;> simp only [Label.slot, some.injEq, reduceCtorEq] at e <;> subst e <;>
    simp_all [Tab.can, Tab.apply, Label.upsets, Task.inFcfs]

theorem aims_takes {Q : Tab → Label → Prop} {t u : Tab} (ht : Takes table Q t u)
    (hQ : ∀ i, a.targets i → ∀ t l, Q t l → t.can l → ¬ l.upsets i) (h : a.Aims t) : a.Aims u := by
  obtain ⟨n, ph⟩ := a
  have keep (i : Slot) (hi : Aging.targets ⟨n, ph⟩ i) (hf : (t.task i).inFcfs) :
      (u.task i).inFcfs ∧ (u.task i).pid = (t.task i).pid := by
    refine takes_inv (P := fun v => (v.task i).inFcfs ∧ (v.task i).pid = (t.task i).pid) (fun v l hq hc hv => ?_) ht ⟨hf, rfl⟩
    obtain ⟨h1, h2⟩ := inFcfs_apply hc (hQ i hi v l hq hc) hv.1
    exact ⟨h1, h2.trans hv.2⟩
  cases ph with
  | start => trivial
  | window i => exact (keep i rfl h).1
  | raise i pid => exact ⟨(keep i rfl h.1).1, (keep i rfl h.1).2.trans h.2⟩
  | resume i => trivial

/-! ## Runs -/

structure Sys.AgingOk (s : Sys) : Prop where
  clock : s.OneClock
  aims : ∀ q a, s.call q = some a → a.Aims s.k.tab

/-- the pid that a call passes to change_sched_level is that of the process it found, which is still in the FCFS queue -/
theorem raising_finds (hA : s.AgingOk) (hap : s.k.tab.Apart) {pid : Int} (h : s.raising c = some pid) :
    ∃ i, s.k.findPid pid = some i ∧ (s.k.tab.task i).inFcfs := by
  obtain ⟨n, i, ha⟩ := raising_some.1 h
  obtain ⟨hf, hp⟩ := hA.aims _ _ (agingOf_some hA.clock ha).2.1
  refine ⟨i, ?_, hf⟩
  have hs : (s.k.proc i).state = .runnable := hf.1
  rw [← hp]
  exact findPid_self hap (by simp [hs])

/-- the windows are spared, pids are fresh, and the steps of others keep the counters exact and ptable.lock free -/
def Sys.Calm (s : Sys) (op : Op) : Prop :=
  s.Spares op ∧ s.FreshPid op ∧ (op.ages = false → s.Counted op ∧ s.Unlocked op)

instance (s : Sys) (op : Op) : Decidable (s.Calm op) :=
  inferInstanceAs (Decidable (s.Spares op ∧ s.FreshPid op ∧ (op.ages = false → s.Counted op ∧ s.Unlocked op)))

/-- the calls' own sections need no condition but that the windows were spared -/
theorem calm_steps (hA : s.AgingOk) (hap : s.k.tab.Apart) (hC : s.Calm op) : s.Counted op ∧ s.Unlocked op := by
  by_cases hop : op.ages = false
  · exact hC.2.2 hop
  cases op with
  | age c =>
    refine ⟨fun pid hp j hj _ he => ?_, fun pid hp j hj he => ?_⟩
    all_goals
      obtain ⟨i, hi, hf⟩ := raising_finds hA hap hp
      obtain rfl : i = j := by simpa [hi] using hj
    · have h1 : (s.k.proc i).schedClass = 1 := he.2
      have h2 : (s.k.proc i).schedClass = 2 := hf.2.1
      omega
    · have h2 : (s.k.proc i).schedLevel = 2 := hf.2.2
      omega
  | _ => exact absurd rfl hop

theorem labels_run {i n : Slot} (h : s.labels op t (.run c i n)) : ∃ d, op = .dispatch d := by
  cases op <;> simp [Sys.labels, Pass, Resume, WaitRound, Farewell, Woken] at h ⊢

/-- what other steps do to the table does not upset the process of a window -/
theorem spares_aims (h : s.Ok) (h' : (step s op).Ok) (hS : s.Spares op) (hop : op.ages = false)
    (hq : s.call q = some a) (hA : a.Aims s.k.tab) : a.Aims (step s op).k.tab := by
  have hw (i : Slot) (hi : a.targets i) : s.windowed none i := ⟨q, by simp, a, hq, hi⟩
  by_cases hd : ∃ c, op = .dispatch c
  · obtain ⟨c, rfl⟩ := hd
    obtain ⟨-, e | ⟨j, hg, hj, ht, -, -⟩⟩ := dispatch_cases h c
    · rw [e]; exact hA
    · refine aims_takes ht (fun i hi t l hl _ hu => ?_) hA
      rcases hl with rfl | rfl | ⟨⟨m, rfl⟩ | rfl, -⟩
      · exact hS hg j hj ((show j = i from hu) ▸ hw i hi)
      all_goals exact hu
  · refine aims_takes (step_takes h h') (fun i hi t l hl hc hu => ?_) hA
    cases l with
    | run d j n => exact hd (labels_run hl)
    | setDeadline j =>
      obtain rfl : j = i := hu
      obtain ⟨d, pid, v, rfl, -, hr, hv, hf⟩ := labels_setDeadline hl
      exact hS hr hv j hf (hw j hi)
    | setLevel j n =>
      obtain rfl : j = i := hu
      obtain ⟨-, ⟨d, pid, rfl, hr, hf⟩ | ⟨d, pid, rfl, -⟩⟩ := labels_setLevel hl
      · exact hS hr hc.1 j hf (hw j hi)
      · cases hop
    | _ => exact hu

theorem step_clock (h : s.OneClock) (hop : op.ages = false) : (step s op).OneClock := by
  by_cases ht : op = .tick
  · subst ht
    intro d hd
    simp only [step]
    split_ifs
    · unfold Sys.exec
      split
      · simpa [Sys.setIrq, hd] using h d hd
      · exact h d hd
      · exact h d hd
    · exact h d hd
  · intro d hd
    rw [step_irq ht (by rintro c rfl; cases hop)]
    exact h d hd

theorem step_oneClock (h : s.Ok) (h1 : s.OneClock) (hu : s.Unlocked op) : (step s op).OneClock := by
  by_cases hop : op.ages = false
  · exact step_clock h1 hop
  cases op with
  | age c =>
    cases ha : s.agingOf c with
    | none => simp only [step, ha]; exact h1
    | some a => exact (step_age h h1 ha hu).2.1
  | _ => exact absurd rfl hop

/-- **A step that spares the windows keeps every call aimed.** -/
theorem step_aims (h : s.Ok) (hap : s.k.tab.Apart) (hA : s.AgingOk) (h' : (step s op).Ok) (hC : s.Calm op) :
    (step s op).AgingOk := by
  by_cases hop : op.ages = false
  · refine ⟨step_clock hA.clock hop, fun q b hb => ?_⟩
    rcases step_call (s := s) op hop q with e | ⟨-, n, e⟩
    · exact spares_aims h h' hC.1 hop (e.symm.trans hb) (hA.aims q b (e.symm.trans hb))
    · obtain rfl : (⟨n, .start⟩ : Aging) = b := some.inj (e.symm.trans hb)
      trivial
  cases op with
  | age c =>
    cases ha : s.agingOf c with
    | none => simp only [step, ha]; exact hA
    | some a =>
      obtain ⟨-, hclock, hcall, htab⟩ := step_age h hA.clock ha (calm_steps hA hap hC).2
      refine ⟨hclock, fun q a' hq => ?_⟩
      rw [hcall] at hq
      split_ifs at hq with e
      · exact next_aims hq htab (hA.aims _ _ (agingOf_some hA.clock ha).2.1)
      · -- another call: the one process that is raised is not the one it aims at
        refine aims_takes (step_takes h h') (fun i hi t l hl hc hu => ?_) (hA.aims q a' hq)
        cases l with
        | run d j n => obtain ⟨d, hd⟩ := labels_run hl; cases hd
        | setDeadline j => obtain ⟨_, _, _, hd, -⟩ := labels_setDeadline hl; cases hd
        | setLevel j n =>
          obtain rfl : j = i := hu
          obtain ⟨-, ⟨d, pid, hd, -⟩ | ⟨d, pid, hd, -, hr, hf⟩⟩ := labels_setLevel hl
          · cases hd
          · obtain rfl : c = d := by simpa using hd
            exact hC.1 pid hr j hf ⟨q, by simpa using e, a', hq, hi⟩
        | _ => exact hu
  | _ => exact absurd rfl hop

structure Sys.Quiet (s : Sys) : Prop where
  ok : s.Ok
  apart : s.k.tab.Apart
  aging : s.AgingOk
  exact : s.k.Exact

theorem step_quiet (h : s.Quiet) (hC : s.Calm op) : (step s op).Quiet := by
  obtain ⟨hcount, hu⟩ := calm_steps h.aging h.apart hC
  have h' := step_ok h.ok ((step_free_iff h.ok).2 hu)
  exact ⟨h', step_apart h.ok h' hC.2.1 h.apart, step_aims h.ok h.apart h.aging h' hC, step_exact h.ok h' hcount h.exact⟩

theorem boot_quiet : boot.Quiet where
  ok := boot_ok
  apart := ⟨fun _ hi => absurd rfl hi, fun _ _ _ hi => absurd rfl hi⟩
  aging := ⟨fun _ _ => rfl, fun q a h => by cases q <;> simp [boot, Sys.call, Frame.call] at h⟩
  exact := by decide +kernel

/-- whether the step is one of the sections of the caller's call -/
def Sys.turn (s : Sys) (q : Caller) : Op → ℕ
  | .age c => if s.agingOf c ≠ none ∧ s.caller c = q then 1 else 0
  | _ => 0

/-- how many sections the caller's call takes in a run -/
def turns (q : Caller) : Sys → List Op → ℕ
  | _, [] => 0
  | s, op :: ops => s.turn q op + turns q (step s op) ops

/-- a step that is no turn of the call leaves it where it is; a turn brings it closer to the end -/
theorem step_turn (h : s.Ok) (h1 : s.OneClock) (hu : s.Unlocked op) (hq : s.call q = some a) :
    s.turn q op = 0 ∧ (step s op).call q = some a ∨
      s.turn q op = 1 ∧ ∀ b ∈ (step s op).call q, b.phase.left < a.phase.left := by
  by_cases hop : op.ages = false
  · refine .inl ⟨by cases op <;> first | rfl | exact absurd hop (by simp [Op.ages]), ?_⟩
    rcases step_call (s := s) op hop q with e | ⟨e, -⟩
    · exact e.trans hq
    · rw [hq] at e; cases e
  cases op with
  | age c =>
    simp only [Sys.turn]
    cases ha : s.agingOf c with
    | none => exact .inl ⟨by simp, by simp only [step, ha]; exact hq⟩
    | some a0 =>
      obtain ⟨-, -, hcall, -⟩ := step_age h h1 ha hu
      rw [hcall]
      by_cases e : s.caller c = q
      · obtain rfl : a0 = a := by
          have := (agingOf_some h1 ha).2.1
          rw [e, hq] at this
          exact (some.inj this).symm
        refine .inr ⟨by simp [e], fun b' hb' => ?_⟩
        rw [if_pos e.symm] at hb'
        exact (next_left hb').2
      · exact .inl ⟨by simp [e], by rw [if_neg (Ne.symm e)]; exact hq⟩
  | _ => exact absurd rfl hop

/-- a call that takes as many turns as it may still need has returned in between, whatever others do, if nobody leaks
ptable.lock -/
theorem returns_of_turns {ops : List Op} (h : s.Ok) (h1 : s.OneClock) (ha : Along step Sys.Unlocked s ops)
    (hq : s.call q = some a) (ht : a.phase.left ≤ turns q s ops) : ∃ pre, pre <+: ops ∧ (run s pre).call q = none := by
  induction ops generalizing s a with
  | nil =>
    simp only [turns] at ht
    cases hp : a.phase <;> simp only [hp, Phase.left] at ht <;> omega
  | cons op ops ih =>
    have h' := step_ok h ((step_free_iff h).2 ha.1)
    have h1' := step_oneClock h h1 ha.1
    simp only [turns] at ht
    rcases step_turn h h1 ha.1 hq with ⟨h0, hcall⟩ | ⟨h0, hcall⟩
    · obtain ⟨pre, hpre, hnone⟩ := ih h' h1' ha.2 hcall (by omega)
      exact ⟨op :: pre, List.prefix_cons_inj op |>.2 hpre, hnone⟩
    · cases hc : (step s op).call q with
      | none => exact ⟨[op], by simp, hc⟩
      | some b =>
        have := hcall b hc
        obtain ⟨pre, hpre, hnone⟩ := ih h' h1' ha.2 hc (by omega)
        exact ⟨op :: pre, List.prefix_cons_inj op |>.2 hpre, hnone⟩

theorem left_le (ph : Phase) : ph.left ≤ 3 * NPROC + 1 := by
  cases ph <;> simp only [Phase.left] <;> omega

/-- **Aging under interleaving.** In every run whose steps spare the windows of update_wait_time: ptable.lock is free
between steps and the counters are exact; no section of a call panics; a call that is about to raise a process finds it,
RUNNABLE at the FCFS level; and a call that takes its turns returns. -/
theorem aging_safe (ops : List Op) (h : Along step Sys.Calm boot ops) :
    (run boot ops).w.locks = free ∧ (run boot ops).k.Exact ∧
      (∀ c, (step (run boot ops) (.age c)).panicked = (run boot ops).panicked ∧
        ∀ pid ∈ (run boot ops).raising c, ∃ i, (run boot ops).k.findPid pid = some i ∧
          ((run boot ops).k.proc i).runnable ∧ ((run boot ops).k.proc i).fcfs) ∧
      ∀ (q : Caller) (ops' : List Op), Along step Sys.Calm (run boot ops) ops' →
        3 * NPROC + 1 ≤ turns q (run boot ops) ops' → ∃ pre, pre <+: ops' ∧ (run (run boot ops) pre).call q = none := by
  have hQ : (run boot ops).Quiet := along_inv (fun _ _ hC hs => step_quiet hs hC) h boot_quiet
  refine ⟨hQ.ok.locks, hQ.exact, fun c => ⟨?_, fun pid hp => ?_⟩, fun q ops' ha ht => ?_⟩
  · cases ha : (run boot ops).agingOf c with
    | none => simp only [step, ha]
    | some a =>
      refine (step_age hQ.ok hQ.aging.clock ha fun pid hp j hj he => ?_).1
      obtain ⟨i, hi, hf⟩ := raising_finds hQ.aging hQ.apart hp
      obtain rfl : i = j := by simpa [hi] using hj
      have h2 : ((run boot ops).k.proc i).schedLevel = 2 := hf.2.2
      omega
  · obtain ⟨i, hi, hs, hc, hl⟩ := raising_finds hQ.aging hQ.apart hp
    exact ⟨i, hi, hs, hc, hl⟩
  · cases hc : (run boot ops).call q with
    | none => exact ⟨[], by simp, hc⟩
    | some a =>
      have hu : Along step Sys.Unlocked (run boot ops) ops' :=
        along_of_inv (fun _ _ hC hs => ⟨(calm_steps hs.aging hs.apart hC).2, step_quiet hs hC⟩) ha hQ
      exact returns_of_turns hQ.ok hQ.aging.clock hu hc ((left_le _).trans ht)

/-- init forks pids 2 and 3 and calls update_wait_time(800); pid 2, on CPU 1, kills pid 3 and yields between two of its steps -/
def agingRun : List Op :=
  [.userinit 0, .dispatch 0, .forkAlloc 0, .forkCopy 0, .forkFinish 0, .forkAlloc 0, .forkCopy 0, .forkFinish 0,
    .dispatch 1, .updateWaitTime 0 800, .age 0, .kill 1 3, .age 0, .yield 1]

theorem aging_safe_agingRun : Along step Sys.Calm boot agingRun ∧ (run boot agingRun).raising 0 = some 3 ∧
    ∃ i, (run boot agingRun).k.findPid 3 = some i ∧ ((run boot agingRun).k.proc i).runnable ∧
      ((run boot agingRun).k.proc i).fcfs :=
  ⟨by decide +kernel, by decide +kernel, ((aging_safe agingRun (by decide +kernel)).2.2.1 0).2 3 (by decide +kernel)⟩

/-- init on CPU 0 is about to raise pid 3, and pid 2 on CPU 1 raises it first -/
def raisedTwiceRun : List Op :=
  [.userinit 0, .dispatch 0, .forkAlloc 0, .forkCopy 0, .forkFinish 0, .forkAlloc 0, .forkCopy 0, .forkFinish 0,
    .dispatch 1, .updateWaitTime 0 800, .age 0, .age 0, .changeLevel 1 3 1, .age 0, .age 0]

theorem raised_twice_panics : (run boot raisedTwiceRun).panicked 0 = some "acquire" := by decide +kernel

end Xv6
