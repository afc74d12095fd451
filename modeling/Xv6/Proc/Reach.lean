/-
Reachable states.

- `step_ok`: a step from an Ok state that leaves ptable.lock free leaves an Ok state.
- `step_held`: ptable.lock, once held between steps, stays held: every critical section starts by taking it.
- `run_ok`: every reachable state with ptable.lock free is Ok.
- `ok_along`: along Unlocked steps every state is.
- `run_inv`: the invariant rule for those states, over runs whose steps meet a condition.
-/
import Xv6.Proc.Refine

namespace Xv6

open LockProg Runs Function

variable {s : Sys} {c : Cpu} {op : Op} {t : Tab} {ops : List Op} {np : Slot} {i : Slot} {fr : Slot → Frame} {l : Label}

/-! ## Frames -/

/-- the label takes slot np out of fork's hands -/
def Label.starts (t : Tab) (l : Label) (np : Slot) : Prop :=
  l = .abort np ∨ (∃ j, l = .adopt np j) ∨ l = .ready np ∧ (t.task np).state = .embryo

theorem forked_apply (hc : t.can l) (hn : ¬ l.starts t np)
    (h : (t.task np).state = .embryo ∧ (t.task np).parent = none) :
    ((t.apply l).task np).state = .embryo ∧ ((t.apply l).task np).parent = none := by
  by_cases e : l.slot = some np
  swap
  · rwa [apply_task_ne e]
  obtain ⟨hs, hp⟩ := h
  cases l <;> simp only [Label.slot, Option.some.injEq, reduceCtorEq] at e <;> subst e <;>
    simp_all [Tab.can, Tab.apply, Label.starts]

theorem copied_apply (hok : t.Ok) (hc : t.can l) (hn : ¬ l.starts t np)
    (h : (t.task np).state = .embryo ∧ (t.task np).parent ≠ none ∧ (t.task np).context = .forkret) :
    ((t.apply l).task np).state = .embryo ∧ ((t.apply l).task np).parent ≠ none ∧
      ((t.apply l).task np).context = .forkret := by
  by_cases e : l.slot = some np
  swap
  · rwa [apply_task_ne e]
  have hi := hok.started (i := np) (by simp [h.1])
  obtain ⟨hs, hp, hx⟩ := h
  cases l <;> simp only [Label.slot, Option.some.injEq, reduceCtorEq] at e <;> subst e <;>
    simp_all [Tab.can, Tab.apply, Label.starts]

theorem live_apply (hc : t.can l) (hn : ∀ c, l ≠ .die c i) (h : (t.task i).live) :
    ((t.apply l).task i).live := by
  by_cases e : l.slot = some i
  swap
  · rwa [apply_task_ne e]
  unfold Task.live at h ⊢
  cases l <;> simp only [Label.slot, Option.some.injEq, reduceCtorEq] at e <;> subst e <;>
    simp_all [Tab.can, Tab.apply]
  split_ifs <;> simp_all

/-- frames survive labels that leave their EMBRYO slots and their processes alone -/
theorem framesOk_takes {Q : Tab → Label → Prop} {t u : Tab} (ht : Takes table Q t u) (hok : t.Ok)
    (h : FramesOk t fr) (hs : ∀ t l, Q t l → ∀ i np, (fr i).child = some np → ¬ l.starts t np)
    (hd : ∀ t l, Q t l → ∀ c i, l = .die c i → fr i = .idle) : FramesOk u fr := by
  suffices u.Ok ∧ FramesOk u fr from this.2
  refine takes_inv (P := fun t => t.Ok ∧ FramesOk t fr) (fun t l hQ hc hP => ?_) ht ⟨hok, h⟩
  obtain ⟨hok, hf⟩ := hP
  refine ⟨ok_apply hok hc, fun i np e => ?_, fun i np e => ?_, hf.owner, fun i e => ?_⟩
  · exact forked_apply hc (hs t l hQ i np (by rw [e]; rfl)) (hf.forked i np e)
  · exact copied_apply hok hc (hs t l hQ i np (by rw [e]; rfl)) (hf.copied i np e)
  · exact live_apply hc (fun c hl => e (hd t l hQ c i hl)) (hf.busy i e)

/-- process i enters or leaves a call -/
theorem framesOk_set (h : FramesOk t fr) (i : Slot) (f : Frame) (hl : (t.task i).live)
    (h1 : ∀ np, f = .forked np → (t.task np).state = .embryo ∧ (t.task np).parent = none)
    (h2 : ∀ np, f = .copied np → (t.task np).state = .embryo ∧ (t.task np).parent ≠ none ∧ (t.task np).context = .forkret)
    (h3 : ∀ j np, j ≠ i → f.child = some np → (fr j).child ≠ some np) : FramesOk t (update fr i f) := by
  refine ⟨fun j np e => ?_, fun j np e => ?_, fun j l np ej el => ?_, fun j e => ?_⟩
  · by_cases hj : j = i
    · subst hj; exact h1 np (by simpa using e)
    · exact h.forked j np (by simpa [hj] using e)
  · by_cases hj : j = i
    · subst hj; exact h2 np (by simpa using e)
    · exact h.copied j np (by simpa [hj] using e)
  · by_cases hj : j = i <;> by_cases hl : l = i
    · exact hj.trans hl.symm
    · subst hj
      exact absurd (by simpa [hl] using el) (h3 l np hl (by simpa using ej))
    · subst hl
      exact absurd (by simpa [hj] using ej) (h3 j np hj (by simpa using el))
    · exact h.owner j l np (by simpa [hj] using ej) (by simpa [hl] using el)
  · by_cases hj : j = i
    · subst hj; exact hl
    · exact h.busy j (by simpa [hj] using e)

theorem framesOk_call (h : FramesOk t fr) (i : Slot) (f : Frame) (hf : f.child = none)
    (hl : (t.task i).live) : FramesOk t (update fr i f) := by
  refine framesOk_set h i f hl (fun np e => ?_) (fun np e => ?_) (fun j np _ e => ?_)
  · rw [e] at hf; cases hf
  · rw [e] at hf; cases hf
  · rw [hf] at e; cases e

/-! ## Which operation takes a label -/

theorem labels_abort (h : s.labels op t (.abort np)) :
    ∃ c i, op = .forkFail c ∧ s.cur c = some i ∧ s.frame i = .forked np := by
  cases op <;> simp [Sys.labels, Pass, Resume, WaitRound, Farewell, Woken] at h ⊢
  exact h

theorem labels_adopt {np i : Slot} (h : s.labels op t (.adopt np i)) :
    ∃ c, op = .forkCopy c ∧ s.cur c = some i ∧ s.frame i = .forked np := by
  cases op <;> simp [Sys.labels, Pass, Resume, WaitRound, Farewell, Woken] at h ⊢
  grind

theorem labels_ready (h : s.labels op t (.ready np)) :
    (t.task np).state = .sleeping ∨ ∃ c i, op = .forkFinish c ∧ s.cur c = some i ∧ s.frame i = .copied np := by
  cases op <;> simp [Sys.labels, Pass, Resume, WaitRound, Farewell, Woken] at h ⊢ <;> grind

theorem labels_die {c : Cpu} (h : s.labels op t (.die c i)) :
    op = .exit c ∧ s.idle c = some i := by
  cases op <;> simp [Sys.labels, Pass, Resume, WaitRound, Farewell, Woken] at h ⊢
  grind

theorem labels_setDeadline (h : s.labels op t (.setDeadline i)) :
    ∃ c pid d, op = .setDeadline c pid d ∧ t = s.k.tab ∧ s.ready c ∧ 0 ≤ d ∧ s.k.findPid pid = some i := by
  cases op <;> simp [Sys.labels, Pass, Resume, WaitRound, Farewell, Woken] at h ⊢
  grind

theorem labels_setLevel {n : Int} (h : s.labels op t (.setLevel i n)) : t = s.k.tab ∧
    ((∃ c pid, op = .changeLevel c pid n ∧ s.ready c ∧ s.k.findPid pid = some i) ∨
      ∃ c pid, op = .age c ∧ n = 1 ∧ s.raising c = some pid ∧ s.k.findPid pid = some i) := by
  cases op <;> simp [Sys.labels, Pass, Resume, WaitRound, Farewell, Woken] at h ⊢
  · grind
  · obtain ⟨ht, ⟨m, ph⟩, ha, j, pid, rfl, hf, rfl⟩ := h
    exact ⟨ht, rfl, pid, raising_some.2 ⟨m, j, ha⟩, hf⟩

/-- who takes an EMBRYO slot out of fork's hands: the call of fork that works on it -/
theorem labels_starts (h : s.labels op t l) (hs : l.starts t np) :
    ∃ c i, s.cur c = some i ∧ (s.frame i).child = some np ∧
      (op = .forkFail c ∨ op = .forkCopy c ∨ op = .forkFinish c) := by
  rcases hs with rfl | ⟨j, rfl⟩ | ⟨rfl, he⟩
  · obtain ⟨c, i, rfl, hc, hf⟩ := labels_abort h
    exact ⟨c, i, hc, by rw [hf]; rfl, .inl rfl⟩
  · obtain ⟨c, rfl, hc, hf⟩ := labels_adopt h
    exact ⟨c, j, hc, by rw [hf]; rfl, .inr (.inl rfl)⟩
  · rcases labels_ready h with hs | ⟨c, i, rfl, hc, hf⟩
    · rw [he] at hs; cases hs
    · exact ⟨c, i, hc, by rw [hf]; rfl, .inr (.inr rfl)⟩

/-! ## A step keeps the shape -/

theorem exec_frame {α : Type} {p : K α} {f : α → Sys → Sys} (hf : ∀ a s, (f a s).frame = s.frame) :
    (s.exec c p f).frame = s.frame := by
  unfold Sys.exec
  split
  · rw [hf]
  · rfl
  · rfl

theorem logWait_frame (i : Slot) (e : Exit) : (s.logWait i e).frame = s.frame := by
  unfold Sys.logWait; split
  · split_ifs <;> rfl
  · rfl

/-- the operations that are not part of fork and not part of update_wait_time leave the frames alone -/
def Op.framed : Op → Prop
  | .forkAlloc _ | .forkFail _ | .forkCopy _ | .forkFinish _ | .updateWaitTime _ _ | .age _ => True
  | _ => False

theorem step_frame (h : ¬ op.framed) : (step s op).frame = s.frame := by
  cases op <;> simp only [Op.framed, not_true_eq_false, not_false_eq_true] at h <;> simp only [step]
  case dispatch c =>
    split_ifs
    · refine exec_frame fun r s' => ?_
      split
      · split_ifs
        · exact logWait_frame ..
        · rfl
      · rfl
    · rfl
  case sleep c ch =>
    split
    · rfl
    · split_ifs
      · exact exec_frame fun _ _ => rfl
      · rfl
  all_goals split <;> first | rfl | exact exec_frame fun _ _ => rfl | exact exec_frame fun _ _ => logWait_frame ..

theorem setAging_frame (a : Option Aging) : (s.setAging c a).frame = s.frame ∨
    ∃ i f, s.cur c = some i ∧ f.child = none ∧ (s.setAging c a).frame = update s.frame i f := by
  unfold Sys.setAging
  split
  · exact .inl rfl
  · cases hc : s.cur c with
    | none => exact .inl rfl
    | some i => exact .inr ⟨i, _, rfl, by cases a <;> rfl, rfl⟩

/-- the frames after an operation that is not part of fork's second half -/
theorem frames_kept (h : s.Ok) {u : Tab} (ht : Takes table (s.labels op) s.k.tab u)
    (hop : ∀ c, op ≠ .forkFail c ∧ op ≠ .forkCopy c ∧ op ≠ .forkFinish c) : FramesOk u s.frame := by
  refine framesOk_takes ht h.tab h.frames (fun t l hQ i np _ hs => ?_) (fun t l hQ c i e => ?_)
  · obtain ⟨c, -, -, -, e | e | e⟩ := labels_starts hQ hs
    · exact (hop c).1 e
    · exact (hop c).2.1 e
    · exact (hop c).2.2 e
  · subst e; exact (idle_some (labels_die hQ).2).2

/-- the frames of the other processes after an operation of fork's second half by process i -/
theorem frames_others (h : s.Ok) {u : Tab} (ht : Takes table (s.labels op) s.k.tab u)
    (hc : s.cur c = some i) (hop : op = .forkFail c ∨ op = .forkCopy c ∨ op = .forkFinish c) :
    FramesOk u (update s.frame i .idle) := by
  have hi : (s.k.tab.task i).live := .inr (.inr (h.running hc))
  refine framesOk_takes ht h.tab (framesOk_call h.frames i .idle rfl hi) (fun t l hQ j np hj hs => ?_)
    (fun t l hQ d j e => ?_)
  · obtain ⟨d, i', hd, hf, hop'⟩ := labels_starts hQ hs
    obtain rfl : c = d := by rcases hop with rfl | rfl | rfl <;> simpa using hop'
    obtain rfl : i = i' := by simpa [hc] using hd
    by_cases e : j = i
    · subst e; simp at hj; cases hj
    · exact e (h.frames.owner j i np (by simpa [e] using hj) hf)
  · subst e
    rcases hop with rfl | rfl | rfl <;> cases (labels_die hQ).1

theorem frames_forkAlloc (h : s.Ok) (c : Cpu) : FramesOk (step s (.forkAlloc c)).k.tab (step s (.forkAlloc c)).frame := by
  have hk := frames_kept h (sim_forkAlloc h c).2 (by simp)
  cases hc : s.idle c with
  | none => simp only [step, hc]; exact h.frames
  | some i =>
    rw [step_forkAlloc h.locks hc] at hk ⊢
    cases hu : s.k.findUnused with
    | none => exact h.frames
    | some np =>
      simp only [hu] at hk
      have hun := findUnused_some hu
      have hne : np ≠ i := by rintro rfl; rw [h.running (idle_some hc).1] at hun; cases hun
      have ht : (s.k.alloc np).tab = s.k.tab.apply (.alloc np) := tab_alloc np
      have hnew : ((s.k.alloc np).tab.task np).state = .embryo ∧ ((s.k.alloc np).tab.task np).parent = none := by
        rw [ht]; simpa [Tab.apply, Tab.setTask] using h.tab.orphan np hun
      refine framesOk_set hk i (.forked np) ?_ (fun np' e => ?_) (fun np' e => by cases e) fun j np' hj e hc' => ?_
      · change ((s.k.alloc np).tab.task i).live
        rw [ht, apply_off rfl _ hne.symm]
        exact .inr (.inr (h.running (idle_some hc).1))
      · cases e; exact hnew
      · cases e
        have hemb : (s.k.tab.task np).state = .embryo := by
          cases hf : s.frame j with
          | forked m => rw [hf] at hc'; cases hc'; exact (h.frames.forked j np hf).1
          | copied m => rw [hf] at hc'; cases hc'; exact (h.frames.copied j np hf).1
          | idle | aging a => rw [hf] at hc'; cases hc'
        exact absurd (hemb.symm.trans hun) (by decide)

theorem frames_forkFail (h : s.Ok) (c : Cpu) : FramesOk (step s (.forkFail c)).k.tab (step s (.forkFail c)).frame := by
  rcases forked_cases s c with ⟨e, -⟩ | ⟨i, np, hc, hf⟩
  · rw [e]; exact h.frames
  · have hk := frames_others h (sim_forkFail h c).2 hc (.inl rfl)
    rw [step_forkFail hc hf] at hk ⊢
    exact hk

theorem frames_forkCopy (h : s.Ok) (c : Cpu) : FramesOk (step s (.forkCopy c)).k.tab (step s (.forkCopy c)).frame := by
  rcases forked_cases s c with ⟨-, e⟩ | ⟨i, np, hc, hf⟩
  · rw [e]; exact h.frames
  have hk := frames_others h (sim_forkCopy h c).2 hc (.inr (.inl rfl))
  have hne : np ≠ i := by
    rintro rfl
    have := (h.frames.forked np np hf).1
    rw [show (s.k.tab.task np).state = .running from h.running hc] at this; cases this
  have ht : (step s (.forkCopy c)).k.tab = s.k.tab.apply (.adopt np i) := by
    rw [step_forkCopy hc hf]; exact tab_adopt np i
  have hframe : (step s (.forkCopy c)).frame = update (update s.frame i .idle) i (.copied np) := by
    rw [step_forkCopy hc hf, update_idem]; rfl
  rw [hframe]
  refine framesOk_set hk i (.copied np) ?_ (fun np' e => by cases e) (fun np' e => ?_) fun j np' hj e hc' => ?_
  · rw [ht, apply_off rfl _ hne.symm]
    exact .inr (.inr (h.running hc))
  · cases e
    rw [ht]
    simpa [Tab.apply] using (h.frames.forked i np hf).1
  · cases e
    exact hj (h.frames.owner j i np (by simpa [hj] using hc') (by rw [hf]; rfl))

theorem frames_forkFinish (h : s.Ok) (c : Cpu) :
    FramesOk (step s (.forkFinish c)).k.tab (step s (.forkFinish c)).frame := by
  rcases copied_cases s c with e | ⟨i, np, hc, hf⟩
  · rw [e]; exact h.frames
  · have hk := frames_others h (sim_forkFinish h c).2 hc (.inr (.inr rfl))
    rw [step_forkFinish h.locks hc hf] at hk ⊢
    exact hk

/-- a call of update_wait_time moves on: only the frame of the CPU's process changes -/
theorem step_age_frame (c : Cpu) : (step s (.age c)).frame = s.frame ∨
    ∃ i f, ((step s (.age c)).k.cpu c).proc = some i ∧ f.child = none ∧
      (step s (.age c)).frame = update s.frame i f := by
  simp only [step]
  split
  · exact .inl rfl
  · unfold Sys.exec
    split
    · rename_i a _ r w _
      refine (setAging_frame (s := { s with w := w }) _).imp id ?_
      rintro ⟨i, f, hc, hf, e⟩
      refine ⟨i, f, ?_, hf, e⟩
      rw [Sys.k, setAging_w]
      exact (cur_some hc).2
    · exact .inl rfl
    · exact .inl rfl

/-- **The shape is kept** by a step that leaves ptable.lock free. -/
theorem step_ok (h : s.Ok) (hfree : (step s op).w.locks .ptable = none) : (step s op).Ok := by
  obtain ⟨hl, ht⟩ : s.Refines op (step s op) := step_sim h ((step_free_iff h).1 hfree)
  have hok := ok_of_takes ht h.tab
  refine ⟨hl, hok, ?_⟩
  by_cases hop : op.framed
  swap
  · rw [step_frame hop]
    exact frames_kept h ht fun c => ⟨by rintro rfl; exact hop trivial, by rintro rfl; exact hop trivial,
      by rintro rfl; exact hop trivial⟩
  cases op with
  | forkAlloc c => exact frames_forkAlloc h c
  | forkFail c => exact frames_forkFail h c
  | forkCopy c => exact frames_forkCopy h c
  | forkFinish c => exact frames_forkFinish h c
  | updateWaitTime c n =>
    cases hc : s.idle c with
    | none => simp only [step, hc]; exact h.frames
    | some i =>
      simp only [step, hc]
      exact framesOk_call h.frames i _ rfl (.inr (.inr (h.running (idle_some hc).1)))
  | age c =>
    have hk := frames_kept h ht (by simp)
    rcases step_age_frame (s := s) c with e | ⟨i, f, hc, hf, e⟩
    · rw [e]; exact hk
    · rw [e]
      exact framesOk_call hk i f hf (.inr (.inr (hok.running c i hc)))
  | _ => exact absurd hop (by simp [Op.framed])

theorem step_takes (h : s.Ok) (h' : (step s op).Ok) : Takes table (s.labels op) s.k.tab (step s op).k.tab :=
  (step_sim h ((step_free_iff h).1 (by rw [h'.locks]; rfl))).2

theorem boot_ok : boot.Ok := ⟨rfl, ok_boot, by simp [boot], by simp [boot], by simp [boot, Frame.child], by simp [boot]⟩

/-! ## ptable.lock held between steps -/

theorem exec_held {α : Type} {p : K α} {f : α → Sys → Sys} (hp : Blocks .ptable p) (hf : ∀ a s, (f a s).w = s.w)
    (h : s.w.locks .ptable ≠ none) : (s.exec c p f).w.locks .ptable ≠ none := by
  have hb := hp c s.w h
  unfold Sys.exec
  split
  · rename_i e; rw [e] at hb; rw [hf]; exact hb
  · rename_i e; rw [e] at hb; exact hb
  · exact h

section Blocks

variable {α : Type}

theorem blocks_cprintf : Blocks .ptable cprintf :=
  blocks_acquire_other (by decide) (blocks_release_other (by decide) (blocks_ret _))

theorem blocks_curproc {f : Slot → K α} (hf : ∀ i, Blocks .ptable (f i)) : Blocks .ptable (curproc.bind f) := by
  refine blocks_bind (blocks_bind (blocks_get fun _ _ => blocks_ret _) fun r => ?_) hf
  cases r with
  | none => exact blocks_panic _
  | some i => exact blocks_ret _

theorem blocks_wakeup (ch : Chan) : Blocks .ptable (wakeup ch) := blocks_acquire _

theorem blocks_allocprocLocked : Blocks .ptable allocprocLocked := blocks_acquire _

theorem blocks_userinit : Blocks .ptable userinit := by
  have ha : Blocks .ptable (allocproc true) := by
    refine blocks_bind blocks_allocprocLocked fun r => ?_
    cases r with
    | none => exact blocks_ret _
    | some i => exact blocks_set (blocks_ret _)
  refine blocks_bind ha fun r => ?_
  cases r with
  | none => exact blocks_panic _
  | some i => exact blocks_set (blocks_set (blocks_set (blocks_acquire _)))

theorem blocks_sleep (ch : Chan) (ctx : Ctx) : Blocks .ptable (sleep ch none ctx) := by
  refine blocks_bind (blocks_get fun _ _ => blocks_ret _) fun r => ?_
  cases r with
  | none => exact blocks_panic _
  | some i => exact blocks_acquire _

theorem blocks_exit : Blocks .ptable exit := by
  refine blocks_curproc fun i => blocks_get fun c w => ?_
  change Blocks Lock.ptable (if w.st.initproc = some i then _ else _)
  split_ifs
  · exact blocks_panic _
  · exact blocks_acquire _

theorem blocks_setDeadlineForProcess (pid d : Int) : Blocks .ptable (setDeadlineForProcess pid d) := by
  unfold setDeadlineForProcess
  split_ifs
  · exact blocks_bind blocks_cprintf fun _ => blocks_ret _
  · exact blocks_acquire _

theorem blocks_changeSchedLevel (pid t : Int) : Blocks .ptable (changeSchedLevel pid t) := by
  by_cases ht : t ≠ 1 ∧ t ≠ 2
  · rw [changeSchedLevel, if_pos ht]; exact blocks_bind blocks_cprintf fun _ => blocks_ret _
  · rw [changeSchedLevel, if_neg ht]; exact blocks_acquire _

theorem blocks_agingSection (a : Aging) : Blocks .ptable (agingSection a) := by
  obtain ⟨n, ph⟩ := a
  cases ph with
  | start => exact blocks_acquire _
  | window i => exact blocks_get fun _ _ => blocks_ret _
  | raise i pid => exact blocks_bind (blocks_changeSchedLevel pid 1) fun _ => blocks_ret _
  | resume i => exact blocks_acquire _

theorem blocks_clockTick : Blocks .ptable clockTick :=
  blocks_bind (blocks_acquire_other (by decide) (blocks_ret _)) fun _ => blocks_bind (blocks_set (blocks_ret _)) fun _ =>
    blocks_bind (blocks_get fun _ _ => blocks_ret _) fun _ => blocks_bind (blocks_wakeup .ticks) fun _ =>
      blocks_bind (blocks_release_other (by decide) (blocks_ret _)) fun _ => blocks_ret _

end Blocks

/-- **ptable.lock, once held between steps, stays held.** -/
theorem step_held (h : s.w.locks .ptable ≠ none) (op : Op) : (step s op).w.locks .ptable ≠ none := by
  cases op <;> simp only [step]
  case userinit c =>
    split_ifs
    · exact exec_held blocks_userinit (fun _ _ => rfl) h
    · exact h
  case forkAlloc c =>
    split
    · exact h
    · exact exec_held blocks_allocprocLocked (fun r _ => by cases r <;> rfl) h
  case forkFail c => split <;> [exact h; (split <;> exact h)]
  case forkCopy c => split <;> [exact h; (split <;> exact h)]
  case forkFinish c =>
    split
    · exact h
    · split
      · exact exec_held (blocks_get fun _ _ => blocks_acquire _) (fun _ _ => rfl) h
      · exact h
  case dispatch c =>
    split_ifs
    · refine exec_held (blocks_acquire _) (fun r s' => ?_) h
      split
      · split_ifs
        · exact logWait_w ..
        · rfl
      · rfl
    · exact h
  case yield c => split <;> [exact h; exact exec_held (blocks_acquire _) (fun _ _ => rfl) h]
  case sleep c ch =>
    split
    · exact h
    · split_ifs
      · exact exec_held (blocks_sleep ch .sleep) (fun _ _ => rfl) h
      · exact h
  case wakeup c ch => split_ifs <;> [exact exec_held (blocks_wakeup ch) (fun _ _ => rfl) h; exact h]
  case kill c pid => split_ifs <;> [exact exec_held (blocks_acquire _) (fun _ _ => rfl) h; exact h]
  case exit c => split <;> [exact h; exact exec_held blocks_exit (fun _ _ => rfl) h]
  case wait c =>
    split
    · exact h
    · exact exec_held (blocks_curproc fun _ => blocks_acquire _) (fun _ _ => logWait_w ..) h
  case exec c name => split <;> exact h
  case setDeadline c pid d => split_ifs <;> [exact exec_held (blocks_setDeadlineForProcess pid d) (fun _ _ => rfl) h; exact h]
  case changeLevel c pid t => split_ifs <;> [exact exec_held (blocks_changeSchedLevel pid t) (fun _ _ => rfl) h; exact h]
  case updateWaitTime c n => split <;> exact h
  case age c =>
    split
    · exact h
    · exact exec_held (blocks_agingSection _) (fun _ _ => setAging_w ..) h
  case tick => split_ifs <;> [exact exec_held blocks_clockTick (fun _ _ => rfl) h; exact h]
  case account c => split <;> exact h
  case fault c => split <;> exact h

/-! ## Runs -/

theorem free_of_step_free (h : (step s op).w.locks .ptable = none) : s.w.locks .ptable = none := by
  by_contra hn
  exact step_held hn op h

theorem free_of_run_free (h : (run s ops).w.locks .ptable = none) : s.w.locks .ptable = none := by
  induction ops generalizing s with
  | nil => exact h
  | cons op ops ih => exact free_of_step_free (ih (s := step s op) h)

theorem run_append (s : Sys) (as bs : List Op) : run s (as ++ bs) = run (run s as) bs := List.foldl_append ..

/-- **Invariant rule for the states with ptable.lock free**, over runs whose steps meet C -/
theorem run_inv {C : Sys → Op → Prop} {P : Sys → Prop}
    (hP : ∀ s op, C s op → s.Ok → P s → (step s op).Ok → P (step s op)) (ha : Along step C s ops)
    (hok : s.Ok) (hs : P s) (hf : (run s ops).w.locks .ptable = none) : (run s ops).Ok ∧ P (run s ops) := by
  suffices h : (run s ops).w.locks .ptable ≠ none ∨ (run s ops).Ok ∧ P (run s ops) from h.resolve_left fun hn => hn hf
  refine along_inv (P := fun s => s.w.locks .ptable ≠ none ∨ s.Ok ∧ P s) (fun s op hC hs => ?_) ha (.inr ⟨hok, hs⟩)
  rcases hs with hn | ⟨hok, hs⟩
  · exact .inl (step_held hn op)
  · by_cases hf : (step s op).w.locks .ptable = none
    · have hok' := step_ok hok hf
      exact .inr ⟨hok', hP s op hC hok hs hok'⟩
    · exact .inl hf

/-- **Every reachable state with ptable.lock free is Ok.** -/
theorem run_ok (hf : (run boot ops).w.locks .ptable = none) : (run boot ops).Ok :=
  (run_inv (C := fun _ _ => True) (P := fun _ => True) (fun _ _ _ _ _ _ => trivial)
    (along_of_mem (fun _ _ _ => trivial) boot) boot_ok trivial hf).1

/-- along Unlocked steps every state reached is Ok -/
theorem ok_along (ha : Along step Sys.Unlocked boot ops) : (run boot ops).Ok :=
  along_inv (fun _ _ hu h => step_ok h ((step_free_iff h).2 hu)) ha boot_ok

end Xv6
