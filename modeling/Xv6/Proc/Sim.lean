/-
The code refines the table: from a kernel whose table has the right shape, each critical section's effect is a sequence
of labels. A predicate on labels (`Woken`, `Farewell`, `Reaps`, …) says which labels a section can take.

exit writes a child's parent before it wakes init; the two commute (`wakeAll_setParent`), so that in the table init is
awake before it inherits a zombie.
-/
import Xv6.Proc.Invariant

namespace Xv6

open LockProg Runs Function

variable {c : Cpu} {k : Kernel} {cur : Slot} {i : Slot}

/-! ## wakeup1 and kill -/

/-- a sleeping task becomes RUNNABLE -/
def Woken (t : Tab) (l : Label) : Prop := ∃ i, l = .ready i ∧ (t.task i).state = .sleeping

theorem takes_wakeStep (h : k.tab.Ok) (ch : Chan) (i : Slot) : Takes table Woken k.tab (k.wakeStep ch i).tab := by
  by_cases hs : (k.proc i).state = .sleeping ∧ (k.proc i).chan = ch
  · rw [Kernel.wakeStep, if_pos hs, tab_ready i _ (fun _ _ => rfl)]
    exact takes_label (.ready i) ⟨h.started (i := i) (by simp [Proc.task, hs.1]), .inl hs.1⟩ ⟨i, rfl, hs.1⟩
  · rw [Kernel.wakeStep, if_neg hs]
    exact takes_refl _

theorem ok_of_takes {Q : Tab → Label → Prop} {t u : Tab} (ht : Takes table Q t u) (h : t.Ok) : u.Ok :=
  takes_inv (fun _ _ _ hc h => ok_apply h hc) ht h

theorem takes_wakeAll (h : k.tab.Ok) (ch : Chan) (is : List Slot) : Takes table Woken k.tab (k.wakeAll ch is).tab := by
  induction is generalizing k with
  | nil => exact takes_refl _
  | cons i is ih =>
    have h1 := takes_wakeStep h ch i
    exact takes_trans h1 (ih (ok_of_takes h1 h))

theorem takes_kill (h : k.tab.Ok) (i : Slot) :
    Takes table (fun t l => l = .kill i ∨ Woken t l) k.tab (k.kill i).tab := by
  have h1 : (k.modProc i fun p => { p with killed := 1 }).tab = k.tab.apply (.kill i) := tab_modProc ..
  refine takes_trans (takes_label (.kill i) trivial (.inl rfl)) ?_
  rw [← h1]
  unfold Kernel.kill
  split_ifs with hs
  · have hs' : ((k.modProc i fun p => { p with killed := 1 }).tab.task i).state = .sleeping := by simp [Proc.task, hs]
    have hi : k.initproc ≠ none := h.started (i := i) (by simp [Proc.task, hs])
    rw [tab_ready i _ (fun _ _ => rfl)]
    exact takes_label (.ready i) ⟨hi, .inl hs'⟩ (.inr ⟨i, rfl, hs'⟩)
  · exact takes_refl _

/-! ## exit -/

/-- what exit's first part does: wake sleepers, pass children of cur to init -/
def Farewell (cur : Slot) (t : Tab) (l : Label) : Prop :=
  Woken t l ∨ ∃ j, l = .inherit j ∧ (t.task j).parent = some cur

/-- what those labels leave alone -/
structure Kept (cur : Slot) (t u : Tab) : Prop where
  init : u.init = t.init
  running : ∀ j, (t.task j).state = .running → (u.task j).state = .running
  asleep : ∀ j, (u.task j).state = .sleeping → (t.task j).state = .sleeping ∧ (u.task j).chan = (t.task j).chan
  parent : ∀ j, (t.task j).parent ≠ some cur → (u.task j).parent = (t.task j).parent

/-- a label leaves them alone when the slot it writes keeps them -/
theorem kept_write {t : Tab} {l : Label} {i cur : Slot} (hs : l.slot = some i) (h0 : (t.apply l).init = t.init)
    (h1 : (t.task i).state = .running → ((t.apply l).task i).state = .running)
    (h2 : ((t.apply l).task i).state = .sleeping →
      (t.task i).state = .sleeping ∧ ((t.apply l).task i).chan = (t.task i).chan)
    (h3 : (t.task i).parent ≠ some cur → ((t.apply l).task i).parent = (t.task i).parent) : Kept cur t (t.apply l) := by
  refine ⟨h0, fun j hj => ?_, fun j hj => ?_, fun j hj => ?_⟩ <;> by_cases e : j = i
  · subst e; exact h1 hj
  · rw [apply_off hs j e]; exact hj
  · subst e; exact h2 hj
  · rw [apply_off hs j e] at hj ⊢; exact ⟨hj, rfl⟩
  · subst e; exact h3 hj
  · rw [apply_off hs j e]

theorem kept_ready {t : Tab} {i cur : Slot} (h : (t.task i).state = .sleeping) : Kept cur t (t.apply (.ready i)) :=
  kept_write rfl (by simp [Tab.apply]) (by simp [h]) (by simp [Tab.apply]) (by simp [Tab.apply])

theorem kept_inherit {t : Tab} {i cur : Slot} (h : (t.task i).parent = some cur) : Kept cur t (t.apply (.inherit i)) :=
  kept_write rfl (by simp [Tab.apply]) (by simp [Tab.apply]) (by simp [Tab.apply]) (absurd h)

theorem kept_trans {t u v : Tab} (h1 : Kept cur t u) (h2 : Kept cur u v) : Kept cur t v where
  init := h2.init.trans h1.init
  running j h := h2.running j (h1.running j h)
  asleep j h := by
    obtain ⟨h3, h4⟩ := h2.asleep j h
    obtain ⟨h5, h6⟩ := h1.asleep j h3
    exact ⟨h5, h4.trans h6⟩
  parent j h := by
    have e := h1.parent j h
    exact (h2.parent j (e ▸ h)).trans e

theorem kept_of_takes {t u : Tab} (h : Takes table (Farewell cur) t u) : Kept cur t u := by
  refine takes_rel (P := fun _ => True) (fun t => ⟨rfl, fun _ => id, fun _ h => ⟨h, rfl⟩, fun _ _ => rfl⟩)
    (fun _ _ _ => kept_trans) (fun t l hQ _ _ => ⟨trivial, ?_⟩) h trivial
  rcases hQ with ⟨i, rfl, hi⟩ | ⟨i, rfl, hi⟩
  · exact kept_ready hi
  · exact kept_inherit hi

theorem addCount_congr {p q : Proc} (hc : p.schedClass = q.schedClass) (hl : p.schedLevel = q.schedLevel) (d : Int) :
    k.addCount p d = k.addCount q d := by
  have h1 : p.edf ↔ q.edf := by simp only [Proc.edf, hc]
  have h2 : p.rr ↔ q.rr := by simp only [Proc.rr, hc, hl]
  have h3 : p.fcfs ↔ q.fcfs := by simp only [Proc.fcfs, hc, hl]
  simp only [Kernel.addCount, h1, h2, h3]

theorem modProc_addCount (i : Slot) (f : Proc → Proc) (p : Proc) (d : Int) :
    (k.addCount p d).modProc i f = (k.modProc i f).addCount p d := by
  unfold Kernel.addCount; split_ifs <;> rfl

theorem modProc_comm (i j : Slot) {f g : Proc → Proc} (h : ∀ p, f (g p) = g (f p)) :
    (k.modProc i f).modProc j g = (k.modProc j g).modProc i f := by
  by_cases e : j = i
  · subst e; simp only [modProc_modProc, h]
  · simp only [Kernel.modProc, update_of_ne e, update_of_ne (Ne.symm e), update_comm e]

theorem ready_setParent (i j : Slot) (v : Option Slot) :
    (k.modProc i fun p => { p with parent := v }).ready j (fun _ q => q) =
      (k.ready j fun _ q => q).modProc i fun p => { p with parent := v } := by
  let P : Proc → Proc := fun p => { p with parent := v }
  let W : Proc → Proc := fun p => Proc.stamp k.ticks { p with state := .runnable }
  change ((k.modProc i P).modProc j W).addCount (((k.modProc i P).modProc j W).proc j) 1 =
    ((k.modProc j W).addCount ((k.modProc j W).proc j) 1).modProc i P
  rw [modProc_addCount, modProc_comm i j (f := P) (g := W) fun _ => rfl]
  by_cases e : j = i
  · subst e; exact addCount_congr (by simp [P]) (by simp [P]) 1
  · exact addCount_congr (by simp [e]) (by simp [e]) 1

theorem wakeStep_setParent (ch : Chan) (i j : Slot) (v : Option Slot) :
    (k.modProc i fun p => { p with parent := v }).wakeStep ch j =
      (k.wakeStep ch j).modProc i fun p => { p with parent := v } := by
  have hp : ∃ w, (k.modProc i fun p => { p with parent := v }).proc j = { k.proc j with parent := w } := by
    by_cases e : j = i
    · subst e; exact ⟨v, by simp⟩
    · exact ⟨(k.proc j).parent, by simp [e]⟩
  obtain ⟨w, hp⟩ := hp
  unfold Kernel.wakeStep
  rw [hp]
  split_ifs
  · exact ready_setParent i j v
  · rfl

theorem wakeAll_setParent (ch : Chan) (i : Slot) (v : Option Slot) (is : List Slot) :
    (k.modProc i fun p => { p with parent := v }).wakeAll ch is =
      (k.wakeAll ch is).modProc i fun p => { p with parent := v } := by
  induction is generalizing k with
  | nil => rfl
  | cons j is ih =>
    change ((k.modProc i fun p => { p with parent := v }).wakeStep ch j).wakeAll ch is = _
    rw [wakeStep_setParent, ih]
    rfl

theorem chanOf_eq_proc {v : Option Slot} {j : Slot} (h : v = some j) : chanOf v = .proc j := by rw [h]; rfl

/-- one pass of exit's loop -/
theorem takes_inheritStep (h : k.tab.Ok) (hr : (k.proc cur).state = .running)
    (hc : k.initproc ≠ some cur) (i : Slot) : Takes table (Farewell cur) k.tab (k.inheritStep cur i).tab := by
  unfold Kernel.inheritStep
  by_cases hp : (k.proc i).parent = some cur
  swap
  · rw [if_neg hp]; exact takes_refl _
  rw [if_pos hp]
  by_cases hz : (k.proc i).state = .zombie
  · -- init is woken first, then it inherits the zombie
    have hw := takes_wakeAll h (chanOf k.initproc) slots
    have hk : Kept cur k.tab (k.wakeAll (chanOf k.initproc) slots).tab :=
      kept_of_takes (takes_mono (fun _ _ h => .inl h) hw)
    have ht : ((k.wakeAll (chanOf k.initproc) slots).proc i).parent = some cur := by
      have e := congrArg Task.parent (wakeAll_task (k := k) (chanOf k.initproc) slots nodup_slots i)
      refine e.trans ?_
      split_ifs <;> exact hp
    simp only [if_pos hz]
    rw [wakeAll_setParent]
    refine takes_trans (takes_mono (fun _ _ h => .inl h) hw) ?_
    have e : ((k.wakeAll (chanOf k.initproc) slots).modProc i fun p => { p with parent := k.initproc }).tab =
        (k.wakeAll (chanOf k.initproc) slots).tab.apply (.inherit i) := by
      rw [tab_modProc]
      simp only [Tab.apply, hk.init]
      rfl
    rw [e]
    refine takes_label (.inherit i) ⟨⟨cur, ht, hk.running cur hr, ?_⟩, fun _ j hj => ?_⟩ (.inr ⟨i, rfl, ht⟩)
    · rw [hk.init]; exact hc
    · have hj' : k.initproc = some j := hk.init.symm.trans hj
      have := wakeAll_awake (k := k) (chanOf k.initproc) j
      rwa [chanOf_eq_proc hj'] at this ⊢
  · simp only [if_neg hz]
    have e : (k.modProc i fun p => { p with parent := k.initproc }).tab = k.tab.apply (.inherit i) := tab_modProc ..
    rw [e]
    exact takes_label (.inherit i) ⟨⟨cur, hp, hr, hc⟩, fun h => absurd h hz⟩ (.inr ⟨i, rfl, hp⟩)

theorem inheritStep_parent (hc : k.initproc ≠ some cur) (i : Slot) :
    ((k.inheritStep cur i).proc i).parent ≠ some cur := by
  unfold Kernel.inheritStep
  split_ifs with hp hz
  · rw [wakeAll_setParent, modProc_self]; exact hc
  · rw [modProc_self]; exact hc
  · exact hp

theorem takes_inheritAll (h : k.tab.Ok) (hr : (k.proc cur).state = .running)
    (hc : k.initproc ≠ some cur) (is : List Slot) : Takes table (Farewell cur) k.tab (k.inheritAll cur is).tab ∧
      ∀ j ∈ is, ((k.inheritAll cur is).proc j).parent ≠ some cur := by
  induction is generalizing k with
  | nil => exact ⟨takes_refl _, by simp⟩
  | cons i is ih =>
    have h1 := takes_inheritStep h hr hc i
    have hk := kept_of_takes h1
    have hinit : (k.inheritStep cur i).initproc = k.initproc := hk.init
    obtain ⟨h2, h3⟩ := ih (k := k.inheritStep cur i) (ok_of_takes h1 h) (hk.running cur hr) (by rwa [hinit])
    refine ⟨takes_trans h1 h2, fun j hj => ?_⟩
    rcases List.mem_cons.1 hj with rfl | hj
    · have hp := inheritStep_parent hc j
      have e : (((k.inheritStep cur j).inheritAll cur is).proc j).parent = ((k.inheritStep cur j).proc j).parent :=
        (kept_of_takes h2).parent j hp
      exact fun h => hp (e.symm.trans h)
    · exact h3 j hj

/-- **exit** is a farewell and then the change to ZOMBIE -/
theorem takes_exited (h : k.tab.Ok) (hcpu : (k.cpu c).proc = some cur) (hc : k.initproc ≠ some cur) :
    Takes table (fun t l => Farewell cur t l ∨ l = .die c cur) k.tab (k.exited c cur).tab := by
  have hr : (k.proc cur).state = .running := h.running c cur hcpu
  set w := k.wakeAll (chanOf (k.proc cur).parent) slots
  have h1 : Takes table (Farewell cur) k.tab w.tab := takes_mono (fun _ _ h => .inl h) (takes_wakeAll h _ slots)
  have hk1 := kept_of_takes h1
  have hinit : w.initproc = k.initproc := hk1.init
  obtain ⟨h2, h3⟩ := takes_inheritAll (k := w) (ok_of_takes h1 h) (hk1.running cur hr) (by rwa [hinit]) slots
  have hk2 := kept_of_takes h2
  have e : (k.exited c cur).tab = (k.farewell cur).tab.apply (.die c cur) := by
    rw [Kernel.exited, tab_switch, tab_modProc]; rfl
  rw [e]
  refine takes_trans (takes_mono (fun _ _ h => .inl h) (takes_trans h1 h2)) (takes_label (.die c cur) ?_ (.inr rfl))
  refine ⟨hk2.running cur (hk1.running cur hr), ?_, ?_, fun j => h3 j (mem_slots j), fun j hj hwait => ?_⟩
  · change ((k.farewell cur).cpu c).proc = some cur
    rw [(farewell_rest cur).1, hcpu]
  · change (k.farewell cur).initproc ≠ some cur
    rw [(farewell_rest cur).2]; exact hc
  · -- the parent was woken first and has not gone back to sleep
    have hp1 : (w.proc cur).parent = (k.proc cur).parent := hk1.parent cur (h.self cur)
    have hp2 : ((k.farewell cur).proc cur).parent = (k.proc cur).parent :=
      (hk2.parent cur (by simp only [tab_task, Proc.task, hp1]; exact h.self cur)).trans hp1
    have hj' : (k.proc cur).parent = some j := hp2.symm.trans hj
    obtain ⟨hs, hch⟩ := hk2.asleep j hwait.1
    exact wakeAll_awake (k := k) (chanOf (k.proc cur).parent) j
      ⟨hs, (hch.symm.trans hwait.2).trans (chanOf_eq_proc hj').symm⟩

/-! ## wait and dispatch -/

/-- the labels of a round of wait by slot i on CPU c -/
def WaitRound (c : Cpu) (i : Slot) (l : Label) : Prop := (∃ j, l = .reap c i j) ∨ l = .block c i (.proc i) .wait

theorem takes_waited (hc : (k.cpu c).proc = some i) (hs : (k.proc i).state = .running) :
    Takes table (fun t l => t = k.tab ∧ WaitRound c i l) k.tab (k.waited c i).2.tab := by
  unfold Kernel.waited
  rcases hw : k.waitScan i slots false with ⟨b, _ | j⟩
  · simp only
    split_ifs
    · exact takes_refl _
    · rw [tab_block]
      refine takes_label (.block c i (.proc i) .wait) ⟨hs, hc, .inl ⟨rfl, rfl, fun j hj => ?_⟩⟩ ⟨rfl, .inr rfl⟩
      exact waitScan_none hw j (mem_slots j) hj
  · simp only
    obtain ⟨hp, hz⟩ := waitScan_zombie hw
    have e : (k.modProc j Proc.reaped).tab = k.tab.apply (.reap c i j) := tab_modProc ..
    rw [e]
    exact takes_label (.reap c i j) ⟨hs, hc, hz, hp⟩ ⟨rfl, .inl ⟨j, rfl⟩⟩

/-- what a process does when it is switched to: a process that slept clears its channel, one that slept in wait scans
again -/
def Resume (c : Cpu) (i : Slot) (t : Tab) (l : Label) : Prop :=
  l = .clear i ∨ WaitRound c i l ∧ (t.task i).context = .wait

theorem takes_resume (hc : (k.cpu c).proc = some i) (hs : (k.proc i).state = .running) :
    Takes table (Resume c i) k.tab (k.resume c i).2.tab := by
  set k' := k.modProc i fun p => { p with chan := .null } with hk'
  have hclear : Takes table (Resume c i) k.tab k'.tab := by
    rw [show k'.tab = k.tab.apply (.clear i) from tab_modProc ..]
    exact takes_label (.clear i) hs (.inl rfl)
  unfold Kernel.resume
  cases hctx : (k.proc i).context with
  | wait =>
    have hctx' : (k'.tab.task i).context = .wait := by simp [hk', Proc.task, hctx]
    have hw := takes_waited (c := c) (k := k') (i := i) (by simpa [hk'] using hc) (by simpa [hk'] using hs)
    refine takes_trans hclear (takes_mono ?_ hw)
    rintro t l ⟨rfl, h⟩
    exact .inr ⟨h, hctx'⟩
  | forkret | yield | exit => exact takes_refl _
  | _ => exact hclear

/-- a process that was switched to runs, or sleeps again in wait -/
theorem resume_state (hc : (k.cpu c).proc = some i) (hs : (k.proc i).state = .running) :
    ((k.resume c i).2.tab.task i).state ≠ .runnable := by
  have keep (t : Tab) (l : Label) (hl : Resume c i t l) (hcan : t.can l)
      (ht : (t.task i).state = .running ∨ (t.task i).state = .sleeping) :
      ((t.apply l).task i).state = .running ∨ ((t.apply l).task i).state = .sleeping := by
    rcases hl with rfl | ⟨⟨j, rfl⟩ | rfl, -⟩
    · simpa [Tab.apply] using ht
    · obtain ⟨hi, -, hj, -⟩ := hcan
      have hne : i ≠ j := by
        rintro rfl
        rw [hi] at hj; cases hj
      simpa [Tab.apply, hne] using ht
    · right; simp [Tab.apply]
  intro hr
  rcases takes_inv keep (takes_resume hc hs) (.inl hs) with h | h <;> · rw [h] at hr; cases hr

theorem resume_cursor (hc : (k.cpu c).proc = some i) (hs : (k.proc i).state = .running) :
    (k.resume c i).2.tab.cursor = k.tab.cursor := by
  have keep (t : Tab) (l : Label) (hl : Resume c i t l) (_ : t.can l) (ht : t.cursor = k.tab.cursor) :
      (t.apply l).cursor = k.tab.cursor := by
    rcases hl with rfl | ⟨⟨j, rfl⟩ | rfl, -⟩ <;> exact ht
  exact takes_inv (P := fun t => t.cursor = k.tab.cursor) keep (takes_resume hc hs) rfl

/-- the scheduler's choice is RUNNABLE -/
theorem choose_runnable {n i : Slot} (h : (k.choose n).1 = some i) : (k.proc i).state = .runnable := by
  unfold Kernel.choose at h
  split_ifs at h
  · have hi : (k.proc i).runnable ∧ (k.proc i).edf := (Scan.leastBy_some h).2.1
    exact hi.1
  · cases hr : k.rrLoop n with
    | none => simp [hr] at h
    | some j =>
      obtain rfl : j = i := by simpa [hr] using h
      exact (Scan.ringFind_some (m := 63) hr).1.1
  · have hi : (k.proc i).runnable ∧ (k.proc i).fcfs := (Scan.leastBy_some h).2.1
    exact hi.1

/-- the labels of a pass of CPU c's scheduler -/
def Pass (c : Cpu) (t : Tab) (l : Label) : Prop := ∃ i, (∃ n, l = .run c i n) ∨ Resume c i t l

theorem takes_dispatched (hn : (k.cpu c).proc = none) (h : (k.choose (k.cpu c).nextrrp).1 = some i) :
    Takes table (fun t l => l = .run c i (k.choose (k.cpu c).nextrrp).2.1 ∨ Resume c i t l) k.tab
      ((k.dispatched c i).resume c i).2.tab := by
  have hs : ((k.dispatched c i).proc i).state = .running := congrArg Task.state (dispatched_task i)
  refine takes_trans (u := (k.dispatched c i).tab) ?_ (takes_mono ?_ (takes_resume (dispatched_cpu i) hs))
  · rw [tab_dispatched]
    exact takes_label (.run c i _) ⟨choose_runnable h, hn⟩ (.inl rfl)
  · exact fun t l h => .inr h

/-- a pass that chooses nothing leaves the cursor -/
theorem tab_afterChoice_none (h : (k.choose (k.cpu c).nextrrp).1 = none) : (k.afterChoice c).tab = k.tab := by
  have hn : (k.choose (k.cpu c).nextrrp).2.1 = (k.cpu c).nextrrp := by
    unfold Kernel.choose at h ⊢
    split_ifs at h ⊢
    · rfl
    · cases hr : k.rrLoop (k.cpu c).nextrrp with
      | none => rfl
      | some j => simp [hr] at h
    · rfl
    · rfl
  rw [tab_afterChoice, hn]
  refine Tab.ext rfl rfl rfl rfl rfl rfl rfl rfl rfl (funext fun d => ?_)
  by_cases e : d = c
  · subst e; simp [Tab.setCursor, Kernel.tab]
  · simp [Tab.setCursor, e]

end Xv6
