/-
The machine refines the table.

- `Sys.labels s op`: which labels an operation can take from s.
- `Sys.Ok`: the spinlocks are free, the table has the right shape, and each call of fork works on an EMBRYO slot of its
  own.
- `step_sim`, `step_free_iff`: from an Ok state a step is a sequence of those labels and leaves the locks free, unless it
  is one of the steps that leave ptable.lock held (`Sys.Unlocked`).
-/
import Xv6.Proc.Steps

namespace Xv6

open LockProg Runs

variable {s : Sys} {c : Cpu} {op : Op}

/-! ## What each operation does to the table -/

def Sys.labels (s : Sys) (op : Op) (t : Tab) (l : Label) : Prop :=
  match op with
  | .userinit _ => ∃ i, l = .seed i
  | .forkAlloc _ => ∃ i, l = .alloc i
  | .forkFail c => ∃ i np, s.cur c = some i ∧ s.frame i = .forked np ∧ l = .abort np
  | .forkCopy c => ∃ i np, s.cur c = some i ∧ s.frame i = .forked np ∧ l = .adopt np i
  | .forkFinish c => ∃ i np, s.cur c = some i ∧ s.frame i = .copied np ∧ l = .ready np
  | .dispatch c => Pass c t l
  | .yield c => ∃ i, s.cur c = some i ∧ l = .yield c i
  | .sleep c ch => ∃ i, s.idle c = some i ∧ l = .block c i ch .sleep
  | .wakeup _ _ => Woken t l
  | .kill _ pid => (∃ i, s.k.findPid pid = some i ∧ l = .kill i) ∨ Woken t l
  | .exit c => ∃ i, s.idle c = some i ∧ (Farewell i t l ∨ l = .die c i)
  | .wait c => ∃ i, s.idle c = some i ∧ WaitRound c i l
  | .exec c _ => ∃ i, s.idle c = some i ∧ l = .execed i
  | .setDeadline c pid d => t = s.k.tab ∧ s.ready c ∧ 0 ≤ d ∧ ∃ i, s.k.findPid pid = some i ∧ l = .setDeadline i
  | .changeLevel c pid n => t = s.k.tab ∧ s.ready c ∧ ∃ i, s.k.findPid pid = some i ∧ l = .setLevel i n
  | .age c => t = s.k.tab ∧ ∃ a, s.agingOf c = some a ∧
      ((∃ i pid j, a.phase = .raise i pid ∧ s.k.findPid pid = some j ∧ l = .setLevel j 1) ∨
        ∃ i, a.phase = .resume i ∧ l = .arrive i a.osTicks)
  | .tick => l = .tick
  | .fault c => ∃ i, s.idle c = some i ∧ l = .kill i
  | .updateWaitTime _ _ | .account _ => False

/-- the step leaves ptable.lock free: change_sched_level finds no process that is already at the target level, and no
process sleeps on the clock when it ticks -/
def Sys.Unlocked (s : Sys) : Op → Prop
  | .changeLevel c pid n => s.ready c → n = 1 ∨ n = 2 → s.k.atPid pid fun p => p.schedLevel ≠ n
  | .age c => ∀ pid ∈ s.raising c, s.k.atPid pid fun p => p.schedLevel ≠ 1
  | .tick => s.ready 0 → ∀ i, ¬ s.k.tickSleeper i
  | _ => True

instance (s : Sys) : (op : Op) → Decidable (s.Unlocked op)
  | .changeLevel _ _ _ => inferInstanceAs (Decidable (_ → _ → Kernel.atPid _ _ _))
  | .age _ => inferInstanceAs (Decidable (∀ pid ∈ s.raising _, Kernel.atPid _ pid _))
  | .tick => inferInstanceAs (Decidable (s.ready 0 → ∀ i, ¬ s.k.tickSleeper i))
  | .userinit _ | .forkAlloc _ | .forkFail _ | .forkCopy _ | .forkFinish _ | .dispatch _ | .yield _ | .sleep _ _
  | .wakeup _ _ | .kill _ _ | .exit _ | .wait _ | .exec _ _ | .setDeadline _ _ _ | .updateWaitTime _ _ | .account _
  | .fault _ => .isTrue trivial

/-- the slot a call of fork is working on -/
def Frame.child : Frame → Option Slot
  | .forked np | .copied np => some np
  | _ => none

/-- each call of fork works on an EMBRYO slot of its own, and only a process that can still run is in a call -/
structure FramesOk (t : Tab) (fr : Slot → Frame) : Prop where
  forked : ∀ i np, fr i = .forked np → (t.task np).state = .embryo ∧ (t.task np).parent = none
  copied : ∀ i np, fr i = .copied np →
    (t.task np).state = .embryo ∧ (t.task np).parent ≠ none ∧ (t.task np).context = .forkret
  owner : ∀ i j np, (fr i).child = some np → (fr j).child = some np → i = j
  busy : ∀ i, fr i ≠ .idle → (t.task i).live

structure Sys.Ok (s : Sys) : Prop where
  locks : s.w.locks = free
  tab : s.k.tab.Ok
  frames : FramesOk s.k.tab s.frame

/-- s' is reached from s by the labels of op, and the locks are free -/
def Sys.Refines (s : Sys) (op : Op) (s' : Sys) : Prop :=
  s'.w.locks = free ∧ Takes table (s.labels op) s.k.tab s'.k.tab

theorem refines_to {s' : Sys} {k' : Kernel} (hw : s'.w = ⟨free, k'⟩)
    (ht : Takes table (s.labels op) s.k.tab k'.tab) : s.Refines op s' := by
  refine ⟨by rw [hw], ?_⟩
  rwa [show s'.k = k' by simp only [Sys.k, hw]]

theorem refines_label {s' : Sys} {k' : Kernel} (l : Label) (hw : s'.w = ⟨free, k'⟩) (ht : k'.tab = s.k.tab.apply l)
    (hc : s.k.tab.can l) (hl : s.labels op s.k.tab l) : s.Refines op s' := by
  refine refines_to hw ?_
  rw [ht]
  exact takes_label l hc hl

theorem refines_self (h : s.Ok) : s.Refines op s := ⟨h.locks, takes_refl _⟩

theorem raising_some {pid : Int} : s.raising c = some pid ↔ ∃ n i, s.agingOf c = some ⟨n, .raise i pid⟩ := by
  unfold Sys.raising
  rcases s.agingOf c with _ | ⟨n, _ | _ | ⟨i, q⟩ | _⟩ <;> simp

theorem Sys.Ok.running (h : s.Ok) {i : Slot} (hc : s.cur c = some i) : (s.k.proc i).state = .running :=
  h.tab.running c i (cur_some hc).2

theorem Sys.Ok.started (h : s.Ok) {i : Slot} (hc : s.cur c = some i) : s.k.initproc ≠ none :=
  h.tab.started (i := i) (by simp [Proc.task, h.running hc])

theorem findUnused_of_unused {k : Kernel} {i : Slot} (h : (k.proc i).state = .unused) : ∃ j, k.findUnused = some j :=
  Option.isSome_iff_exists.1 (List.find?_isSome.2 ⟨i, mem_slots i, by simpa using h⟩)

section Ops

variable (h : s.Ok) (c : Cpu)

include h

theorem sim_userinit : s.Refines (.userinit c) (step s (.userinit c)) := by
  by_cases hg : s.ready c ∧ s.k.initproc = none
  · obtain ⟨i, hi⟩ := findUnused_of_unused (h.tab.empty hg.2 0)
    rw [step_userinit h.locks hg hi]
    exact refines_label (.seed i) rfl (tab_seeded ..) ⟨findUnused_some hi, hg.2⟩ ⟨i, rfl⟩
  · rw [step, if_neg hg]; exact refines_self h

theorem sim_forkAlloc : s.Refines (.forkAlloc c) (step s (.forkAlloc c)) := by
  cases hc : s.idle c with
  | none => simp only [step, hc]; exact refines_self h
  | some i =>
    rw [step_forkAlloc h.locks hc]
    cases hu : s.k.findUnused with
    | none => exact refines_self h
    | some np =>
      exact refines_label (.alloc np) rfl (tab_alloc ..) ⟨findUnused_some hu, h.started (idle_some hc).1⟩ ⟨np, rfl⟩

theorem sim_forkFail : s.Refines (.forkFail c) (step s (.forkFail c)) := by
  rcases forked_cases s c with ⟨e, -⟩ | ⟨i, np, hc, hf⟩
  · rw [e]; exact refines_self h
  obtain ⟨hs, hp⟩ := h.frames.forked i np hf
  rw [step_forkFail hc hf]
  exact refines_label (.abort np) ((setFrame_w ..).trans (w_write h.locks _)) (tab_modProc ..) ⟨hs, hp⟩
    ⟨i, np, hc, hf, rfl⟩

theorem sim_forkCopy : s.Refines (.forkCopy c) (step s (.forkCopy c)) := by
  rcases forked_cases s c with ⟨-, e⟩ | ⟨i, np, hc, hf⟩
  · rw [e]; exact refines_self h
  rw [step_forkCopy hc hf]
  exact refines_label (.adopt np i) ((setFrame_w ..).trans (w_write h.locks _)) (tab_adopt ..)
    ⟨(h.frames.forked i np hf).1, h.running hc⟩ ⟨i, np, hc, hf, rfl⟩

theorem sim_forkFinish : s.Refines (.forkFinish c) (step s (.forkFinish c)) := by
  rcases copied_cases s c with e | ⟨i, np, hc, hf⟩
  · rw [e]; exact refines_self h
  obtain ⟨hs, hp, hx⟩ := h.frames.copied i np hf
  rw [step_forkFinish h.locks hc hf]
  have htab := tab_ready (k := s.k) np (fun t q => { q with lastRun := int32 t }) fun _ _ => by simp only [Proc.task]
  exact refines_label (.ready np) rfl htab ⟨h.started hc, .inr ⟨hs, hp, hx⟩⟩ ⟨i, np, hc, hf, rfl⟩

/-- a pass of the scheduler changes nothing in the table, or runs the process it chose -/
theorem dispatch_cases : (step s (.dispatch c)).w.locks = free ∧
    ((step s (.dispatch c)).k.tab = s.k.tab ∨ ∃ i, (s.ready c ∧ (s.k.cpu c).proc = none) ∧
      (s.k.choose (s.k.cpu c).nextrrp).1 = some i ∧
      Takes table (fun t l => l = .run c i (s.k.choose (s.k.cpu c).nextrrp).2.1 ∨ Resume c i t l) s.k.tab
        (step s (.dispatch c)).k.tab ∧ ((step s (.dispatch c)).k.tab.task i).state ≠ .runnable ∧
      (step s (.dispatch c)).k.tab.cursor c = (s.k.choose (s.k.cpu c).nextrrp).2.1) := by
  by_cases hg : s.ready c ∧ (s.k.cpu c).proc = none
  swap
  · rw [step, if_neg hg]; exact ⟨h.locks, .inl rfl⟩
  cases hi : (s.k.choose (s.k.cpu c).nextrrp).1 with
  | none =>
    rw [step_dispatch_none h.locks hg hi]
    exact ⟨rfl, .inl (tab_afterChoice_none hi)⟩
  | some i =>
    have hx : (s.k.proc i).context ≠ .exit := h.tab.entered i (.inr (.inl (choose_runnable hi)))
    have hw : (step s (.dispatch c)).w = ⟨free, ((s.k.dispatched c i).resume c i).2⟩ := by
      rw [step_dispatch_some h.locks hg hi hx]
      split_ifs
      · rw [logWait_w]; rfl
      · rfl
    refine ⟨by rw [hw], .inr ⟨i, hg, rfl, ?_⟩⟩
    rw [show (step s (.dispatch c)).k = ((s.k.dispatched c i).resume c i).2 by simp only [Sys.k, hw]]
    have hs : ((s.k.dispatched c i).proc i).state = .running := congrArg Task.state (dispatched_task i)
    refine ⟨takes_dispatched hg.2 hi, resume_state (dispatched_cpu i) hs, ?_⟩
    rw [resume_cursor (dispatched_cpu i) hs, tab_dispatched]
    simp [Tab.apply, Tab.setCursor]

theorem sim_dispatch : s.Refines (.dispatch c) (step s (.dispatch c)) := by
  obtain ⟨hw, e | ⟨i, -, -, ht, -, -⟩⟩ := dispatch_cases h c
  · exact ⟨hw, by rw [e]; exact takes_refl _⟩
  · exact ⟨hw, takes_mono (fun t l hl => ⟨i, hl.imp (fun e => ⟨_, e⟩) id⟩) ht⟩

theorem sim_yield : s.Refines (.yield c) (step s (.yield c)) := by
  cases hc : s.cur c with
  | none => simp only [step, hc]; exact refines_self h
  | some i =>
    rw [step_yield h.locks hc]
    exact refines_label (.yield c i) rfl (tab_yielded ..) ⟨h.running hc, (cur_some hc).2⟩ ⟨i, hc, rfl⟩

theorem sim_sleep (ch : Chan) : s.Refines (.sleep c ch) (step s (.sleep c ch)) := by
  cases hc : s.idle c with
  | none => simp only [step, hc]; exact refines_self h
  | some i =>
    have hcur := (idle_some hc).1
    by_cases hch : ch.external = true
    swap
    · simp only [step, hc, if_neg hch]; exact refines_self h
    rw [step_sleep h.locks hc hch (h.running hcur)]
    exact refines_label (.block c i ch .sleep) rfl (tab_block ..) ⟨h.running hcur, (cur_some hcur).2, .inr ⟨rfl, hch⟩⟩ ⟨i, hc, rfl⟩

theorem sim_wakeup (ch : Chan) : s.Refines (.wakeup c ch) (step s (.wakeup c ch)) := by
  by_cases hr : s.ready c
  · rw [step_wakeup h.locks hr]
    exact refines_to rfl (takes_wakeAll h.tab ch slots)
  · rw [step, if_neg hr]; exact refines_self h

theorem sim_kill (pid : Int) : s.Refines (.kill c pid) (step s (.kill c pid)) := by
  by_cases hr : s.ready c
  swap
  · rw [step, if_neg hr]; exact refines_self h
  rw [step_kill h.locks hr]
  cases hf : s.k.findPid pid with
  | none => exact refines_self h
  | some i => exact refines_to rfl (takes_mono (fun t l h => h.imp (fun e => ⟨i, hf, e⟩) id) (takes_kill h.tab i))

theorem sim_exit : s.Refines (.exit c) (step s (.exit c)) := by
  cases hc : s.idle c with
  | none => simp only [step, hc]; exact refines_self h
  | some i =>
    by_cases hi : s.k.initproc = some i
    · rw [step_exit_init h.locks hc hi]
      exact ⟨h.locks, takes_refl _⟩
    · rw [step_exit h.locks hc hi]
      exact refines_to rfl (takes_mono (fun t l h => ⟨i, hc, h⟩) (takes_exited h.tab (cur_some (idle_some hc).1).2 hi))

theorem sim_wait : s.Refines (.wait c) (step s (.wait c)) := by
  cases hc : s.idle c with
  | none => simp only [step, hc]; exact refines_self h
  | some i =>
    have hcur := (idle_some hc).1
    rw [step_wait h.locks hc (h.running hcur)]
    exact refines_to (logWait_w ..) (takes_mono (fun t l h => ⟨i, hc, h.2⟩) (takes_waited (cur_some hcur).2 (h.running hcur)))

omit h in
theorem tab_execed (k : Kernel) (i : Slot) (name : String) :
    (k.modProc i (Proc.execed name)).tab = k.tab.apply (.execed i) := by
  have e : (k.proc i).pid = (k.tab.task i).pid := rfl
  rw [tab_modProc]
  simp only [Tab.apply, Proc.execed, e]
  split_ifs
  · rfl
  · exact congrArg (fun f => ({ k.tab with task := f } : Tab)) (Function.update_eq_self i k.tab.task)

theorem sim_exec (name : String) : s.Refines (.exec c name) (step s (.exec c name)) := by
  cases hc : s.idle c with
  | none => simp only [step, hc]; exact refines_self h
  | some i =>
    simp only [step, hc]
    exact refines_label (.execed i) (w_write h.locks _) (tab_execed ..) (h.running (idle_some hc).1) ⟨i, hc, rfl⟩

theorem sim_setDeadline (pid d : Int) :
    s.Refines (.setDeadline c pid d) (step s (.setDeadline c pid d)) := by
  by_cases hr : s.ready c
  swap
  · rw [step, if_neg hr]; exact refines_self h
  rw [step_setDeadline h.locks hr]
  split_ifs with hd
  · exact refines_self h
  cases hf : s.k.findPid pid with
  | none => exact refines_self h
  | some i =>
    exact refines_label (.setDeadline i) rfl (tab_setDeadline ..) trivial ⟨rfl, hr, not_lt.1 hd, i, hf, rfl⟩

theorem sim_changeLevel (pid n : Int) (hu : s.Unlocked (.changeLevel c pid n)) :
    s.Refines (.changeLevel c pid n) (step s (.changeLevel c pid n)) := by
  by_cases hr : s.ready c
  swap
  · rw [step, if_neg hr]; exact refines_self h
  rw [step_changeLevel h.locks hr]
  by_cases hn : n ≠ 1 ∧ n ≠ 2
  · rw [if_pos hn]; exact refines_self h
  rw [if_neg hn]
  have hn' : n = 1 ∨ n = 2 := by tauto
  cases hf : s.k.findPid pid with
  | none => exact refines_self h
  | some i =>
    have hlev := hu hr hn' i hf
    simp only [if_neg hlev]
    exact refines_label (.setLevel i n) rfl (tab_setLevel i hn') ⟨hn', hlev⟩ ⟨rfl, hr, i, hf, rfl⟩

theorem sim_age (hu : s.Unlocked (.age c)) : s.Refines (.age c) (step s (.age c)) := by
  cases ha : s.agingOf c with
  | none => simp only [step, ha]; exact refines_self h
  | some a =>
    obtain ⟨n, ph⟩ := a
    cases ph with
    | start =>
      obtain ⟨k', ht, hst⟩ := step_age_start h.locks ha
      rw [hst]
      refine refines_to (setAging_w ..) ?_
      rw [ht]; exact takes_refl _
    | window i =>
      rw [step_age_window ha]
      refine refines_to ((setAging_w ..).trans (w_of_free h.locks)) (takes_refl _)
    | raise i pid =>
      rw [step_age_raise h.locks ha]
      cases hf : s.k.findPid pid with
      | none => exact refines_to ((setAging_w ..).trans (w_of_free h.locks)) (takes_refl _)
      | some j =>
        have hlev := hu pid (raising_some.2 ⟨n, i, ha⟩) j hf
        simp only [if_neg hlev]
        exact refines_label (.setLevel j 1) (setAging_w ..) (tab_setLevel j (.inl rfl)) ⟨.inl rfl, hlev⟩
          ⟨rfl, _, ha, .inl ⟨i, pid, j, rfl, hf, rfl⟩⟩
    | resume i =>
      obtain ⟨k', ht, hst⟩ := step_age_resume h.locks ha
      rw [hst]
      exact refines_label (.arrive i n) (setAging_w ..) ht trivial ⟨rfl, _, ha, .inr ⟨i, rfl, rfl⟩⟩

theorem sim_tick (hu : s.Unlocked .tick) : s.Refines .tick (step s .tick) := by
  by_cases hr : s.ready 0
  swap
  · rw [step, if_neg hr]; exact refines_self h
  rw [step_tick h.locks hr (hu hr)]
  exact refines_label .tick rfl (tab_ticked ..) trivial rfl

theorem sim_account : s.Refines (.account c) (step s (.account c)) := by
  cases hc : s.cur c with
  | none => simp only [step, hc]; exact refines_self h
  | some i =>
    simp only [step, hc]
    refine refines_to (w_write h.locks _) ?_
    rw [tab_modProc_same _ _ _ rfl]
    exact takes_refl _

theorem sim_fault : s.Refines (.fault c) (step s (.fault c)) := by
  cases hc : s.idle c with
  | none => simp only [step, hc]; exact refines_self h
  | some i =>
    simp only [step, hc]
    exact refines_label (.kill i) (w_write h.locks _) (tab_modProc ..) trivial ⟨i, hc, rfl⟩

theorem sim_updateWaitTime (n : Int) :
    s.Refines (.updateWaitTime c n) (step s (.updateWaitTime c n)) := by
  cases hc : s.idle c with
  | none => simp only [step, hc]; exact refines_self h
  | some i => simp only [step, hc]; exact ⟨h.locks, takes_refl _⟩

end Ops

/-- **A step that leaves ptable.lock free is a sequence of labels.** -/
theorem step_sim (h : s.Ok) (hu : s.Unlocked op) : s.Refines op (step s op) := by
  cases op with
  | userinit c => exact sim_userinit h c
  | forkAlloc c => exact sim_forkAlloc h c
  | forkFail c => exact sim_forkFail h c
  | forkCopy c => exact sim_forkCopy h c
  | forkFinish c => exact sim_forkFinish h c
  | dispatch c => exact sim_dispatch h c
  | yield c => exact sim_yield h c
  | sleep c ch => exact sim_sleep h c ch
  | wakeup c ch => exact sim_wakeup h c ch
  | kill c pid => exact sim_kill h c pid
  | exit c => exact sim_exit h c
  | wait c => exact sim_wait h c
  | exec c name => exact sim_exec h c name
  | setDeadline c pid d => exact sim_setDeadline h c pid d
  | changeLevel c pid n => exact sim_changeLevel h c pid n hu
  | updateWaitTime c n => exact sim_updateWaitTime h c n
  | age c => exact sim_age h c hu
  | tick => exact sim_tick h hu
  | account c => exact sim_account h c
  | fault c => exact sim_fault h c

/-- the other steps leave it held: by change_sched_level, or by a clock tick that panics -/
theorem step_leaks (h : s.Ok) (hu : ¬ s.Unlocked op) : (step s op).w.locks .ptable ≠ none := by
  cases op with
  | changeLevel c pid n =>
    simp only [Sys.Unlocked, Kernel.atPid, not_forall, not_not] at hu
    obtain ⟨hr, hn, i, hf, hlev⟩ := hu
    rw [step_changeLevel h.locks hr, if_neg (by tauto), hf]
    simp [hlev]
  | age c =>
    simp only [Sys.Unlocked, Kernel.atPid, not_forall, not_not] at hu
    obtain ⟨pid, hp, i, hf, hlev⟩ := hu
    obtain ⟨n, j, ha⟩ := raising_some.1 hp
    rw [step_age_raise h.locks ha, setAging_w, hf]
    simp [hlev]
  | tick =>
    simp only [Sys.Unlocked, not_forall, not_not] at hu
    obtain ⟨hr, i, hi⟩ := hu
    obtain ⟨k', hk⟩ := step_tick_panic h.locks hr hi
    rw [hk]; simp
  | _ => exact absurd trivial hu

/-- **Which steps leave ptable.lock free.** -/
theorem step_free_iff (h : s.Ok) : (step s op).w.locks .ptable = none ↔ s.Unlocked op :=
  ⟨fun hf => by_contra fun hu => step_leaks h hu hf, fun hu => by rw [(step_sim h hu).1]; rfl⟩

end Xv6
