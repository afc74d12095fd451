/-
Round-robin order.

Each CPU's scheduler keeps a cursor (`nextrrp`) between passes. A dispatch by the RR branch takes the first candidate from
the cursor on, around the table, and leaves the cursor behind it; no other step moves it. So after a process is
dispatched, the cursor cannot get past a process that waits at the RR level until it has dispatched that one.

Results:
- `step_chosen`: what a dispatch does to the table and to the cursor.
- `cursor_step`: while p waits, CPU c's cursor stays on the way from q + 1 to p.
- `rr_no_overtaking`: between two dispatches of q by CPU c's RR branch, every process that waits there is dispatched. Any
  number of other CPUs may run.
-/
import Xv6.Proc.Waiting

namespace Xv6

open LockProg Runs Scan

variable {s : Sys} {c : Cpu} {op : Op} {p q : Slot}

/-- the process that a pass of CPU c's scheduler would dispatch now -/
def Sys.chosen (s : Sys) (c : Cpu) : Option Slot :=
  if s.ready c ∧ (s.k.cpu c).proc = none ∧ s.w.locks .ptable = none then (s.k.choose (s.k.cpu c).nextrrp).1 else none

/-- the pass would enter the RR branch -/
def Kernel.entersRr (k : Kernel) : Prop := ¬ 0 < k.countEdf ∧ 0 < k.countRr

instance (k : Kernel) : Decidable k.entersRr := inferInstanceAs (Decidable (¬ 0 < k.countEdf ∧ 0 < k.countRr))

/-- p is RUNNABLE at the RR level -/
def Sys.waitsRr (p : Slot) (s : Sys) : Prop := (s.k.proc p).runnable ∧ (s.k.proc p).rr

instance (p : Slot) (s : Sys) : Decidable (s.waitsRr p) :=
  inferInstanceAs (Decidable ((s.k.proc p).runnable ∧ (s.k.proc p).rr))

/-- the step dispatches p -/
def Sys.dispatches (s : Sys) (p : Slot) : Op → Prop
  | .dispatch c => s.chosen c = some p
  | _ => False

instance (s : Sys) (p : Slot) : (op : Op) → Decidable (s.dispatches p op)
  | .dispatch c => inferInstanceAs (Decidable (s.chosen c = some p))
  | .userinit _ | .forkAlloc _ | .forkFail _ | .forkCopy _ | .forkFinish _ | .yield _ | .sleep _ _ | .wakeup _ _
  | .kill _ _ | .exit _ | .wait _ | .exec _ _ | .setDeadline _ _ _ | .changeLevel _ _ _ | .updateWaitTime _ _ | .age _
  | .tick | .account _ | .fault _ => .isFalse id

/-! ## The cursor -/

/-- the cursor after a choice: moved by the RR branch only, to behind the process it found -/
theorem choose_cursor {k : Kernel} {n i : Slot} (h : (k.choose n).1 = some i) :
    (k.choose n).2.1 = n ∨ k.rrLoop n = some i ∧ (k.choose n).2.1 = i + 1 := by
  unfold Kernel.choose at h ⊢
  split_ifs at h ⊢
  · exact .inl rfl
  · cases hr : k.rrLoop n with
    | none => exact .inl rfl
    | some j =>
      simp only [hr, Option.some.injEq] at h ⊢
      exact .inr ⟨h, by rw [h]⟩
  · exact .inl rfl

theorem choose_rr {k : Kernel} {n i : Slot} (he : k.entersRr) (h : (k.choose n).1 = some i) :
    k.rrLoop n = some i ∧ (k.choose n).2.1 = i + 1 := by
  simp only [Kernel.choose, if_neg he.1, if_pos he.2] at h ⊢
  cases hr : k.rrLoop n with
  | none => simp [hr] at h
  | some j =>
    simp only [hr, Option.some.injEq] at h ⊢
    exact ⟨h, by rw [h]⟩

theorem chosen_some {i : Slot} (h : s.chosen c = some i) : (s.ready c ∧ (s.k.cpu c).proc = none) ∧
    s.w.locks .ptable = none ∧ (s.k.choose (s.k.cpu c).nextrrp).1 = some i := by
  unfold Sys.chosen at h
  split_ifs at h with hg
  exact ⟨⟨hg.1, hg.2.1⟩, hg.2.2, h⟩

/-- the step runs the chosen process and leaves the cursor as the choice leaves it -/
theorem step_chosen (h : s.Ok) {i : Slot} (hi : s.chosen c = some i) :
    Takes table (fun t l => l = .run c i (s.k.choose (s.k.cpu c).nextrrp).2.1 ∨ Resume c i t l) s.k.tab
        (step s (.dispatch c)).k.tab ∧
      (step s (.dispatch c)).k.tab.cursor c = (s.k.choose (s.k.cpu c).nextrrp).2.1 := by
  obtain ⟨hg, -, hch⟩ := chosen_some hi
  obtain ⟨-, e | ⟨j, -, hj, ht, -, hc⟩⟩ := dispatch_cases h c
  · -- the dispatched process is not RUNNABLE any more, so the table did change
    exfalso
    have hr := choose_runnable hch
    have hx : (s.k.proc i).context ≠ .exit := h.tab.entered i (.inr (.inl hr))
    have hstate := resume_state (k := s.k.dispatched c i) (dispatched_cpu i) (congrArg Task.state (dispatched_task i))
    have hk : (step s (.dispatch c)).k = ((s.k.dispatched c i).resume c i).2 := by
      rw [step_dispatch_some h.locks hg hch hx, Sys.k]
      split_ifs
      · rw [logWait_w]; rfl
      · rfl
    rw [← hk, e] at hstate
    exact hstate hr
  · obtain rfl : j = i := Option.some.inj (hj.symm.trans hch)
    exact ⟨ht, hc⟩

/-- other steps leave the cursor of CPU c -/
theorem step_cursor_ne (h : s.Ok) (h' : (step s op).Ok) (hop : op ≠ .dispatch c) :
    (step s op).k.tab.cursor c = s.k.tab.cursor c := by
  have keep {t : Tab} {l : Label} (hl : ∀ i n, l ≠ .run c i n) : (t.apply l).cursor c = t.cursor c := by
    cases l <;> simp only [Tab.apply] <;> first | rfl | simp | skip
    case run d i n =>
      have hd : c ≠ d := fun e => hl i n (by rw [e])
      simp [Tab.setCursor, hd]
    case execed i => split_ifs <;> rfl
  by_cases hd : ∃ d, op = .dispatch d
  · obtain ⟨d, rfl⟩ := hd
    obtain ⟨-, e | ⟨j, -, -, ht, -, -⟩⟩ := dispatch_cases h d
    · rw [e]
    · refine takes_inv (P := fun t => t.cursor c = s.k.tab.cursor c) (fun t l hl _ hp => ?_) ht rfl
      refine (keep fun i n e => ?_).trans hp
      rcases hl with rfl | rfl | ⟨⟨m, rfl⟩ | rfl, -⟩
      · cases e; exact hop rfl
      all_goals cases e
  · refine takes_inv (P := fun t => t.cursor c = s.k.tab.cursor c) (fun t l hl _ hp => ?_) (step_takes h h') rfl
    refine (keep fun i n e => ?_).trans hp
    subst e
    exact hd (labels_run hl)

/-- **One step.** While p waits at the RR level, CPU c's cursor stays on the way from q + 1 to p. -/
theorem cursor_step (h : s.Ok) (h' : (step s op).Ok) (hp : s.waitsRr p) (hp' : (step s op).waitsRr p)
    (hcur : ahead (q + 1) (s.k.cpu c).nextrrp ≤ ahead (q + 1) p) :
    ahead (q + 1) ((step s op).k.cpu c).nextrrp ≤ ahead (q + 1) p := by
  by_cases hop : op = .dispatch c
  swap
  · have e : ((step s op).k.cpu c).nextrrp = (s.k.cpu c).nextrrp := step_cursor_ne h h' hop
    rw [e]; exact hcur
  subst hop
  obtain ⟨-, e | ⟨r, -, hr, -, hstate, hc⟩⟩ := dispatch_cases h c
  · have e' : ((step s (.dispatch c)).k.cpu c).nextrrp = (s.k.cpu c).nextrrp := congrFun (congrArg Tab.cursor e) c
    rw [e']; exact hcur
  have hc' : ((step s (.dispatch c)).k.cpu c).nextrrp = (s.k.choose (s.k.cpu c).nextrrp).2.1 := hc
  rw [hc']
  rcases choose_cursor hr with e | ⟨hloop, e⟩
  · rw [e]; exact hcur
  · rw [e]
    -- p was a candidate and was not taken, so the process found lies before p
    have hne : r ≠ p := by
      rintro rfl
      exact hstate hp'.1
    have hfirst := (ringFind_some (m := 63) hloop).2 p
    have hle : ¬ ahead (s.k.cpu c).nextrrp p < ahead (s.k.cpu c).nextrrp r := fun hlt => hfirst hlt ⟨hp.1, hp.2.2⟩
    have hne' : ahead (s.k.cpu c).nextrrp r ≠ ahead (s.k.cpu c).nextrrp p := fun e => hne (ahead_inj e)
    exact ahead_succ_le hcur (by omega)

theorem cursor_run {ops : List Op} (h : s.Ok) (hp : Throughout step (Sys.waitsRr p) s ops)
    (hf : (run s ops).w.locks .ptable = none) (hcur : ahead (q + 1) (s.k.cpu c).nextrrp ≤ ahead (q + 1) p) :
    ahead (q + 1) ((run s ops).k.cpu c).nextrrp ≤ ahead (q + 1) p := by
  induction ops generalizing s with
  | nil => exact hcur
  | cons op ops ih =>
    have h' := step_ok h (free_of_run_free (s := step s op) hf)
    exact ih h' hp.2 hf (cursor_step h h' hp.1 (throughout_head hp.2) hcur)

/-! ## Runs -/

/-- a process that leaves the queue only by being dispatched stays in it as long as it is not -/
theorem waits_or_dispatched {ops : List Op} (hs : s.waitsRr p)
    (hstay : Along step (fun s op => s.waitsRr p → (step s op).waitsRr p ∨ s.dispatches p op) s ops) :
    Throughout step (Sys.waitsRr p) s ops ∨
      ∃ pre d post, ops = pre ++ .dispatch d :: post ∧ (run s pre).chosen d = some p := by
  induction ops generalizing s with
  | nil => exact .inl hs
  | cons op ops ih =>
    rcases hstay.1 hs with hw | hd
    · rcases ih hw hstay.2 with ht | ⟨pre, d, post, rfl, hc⟩
      · exact .inl ⟨hs, ht⟩
      · exact .inr ⟨op :: pre, d, post, rfl, hc⟩
    · cases op with
      | dispatch d => exact .inr ⟨[], d, ops, rfl, hd⟩
      | _ => exact absurd hd id

/-- **Round-robin no-overtaking.** CPU c's RR branch dispatches q twice, after `pre` and after `mid`. A process p that
waits at the RR level after the first dispatch, and leaves it up to the second only by being dispatched, is dispatched in
between. -/
theorem rr_no_overtaking (pre mid : List Op) (c : Cpu) (p q : Slot) (hpq : p ≠ q)
    (hr1 : (run boot pre).k.entersRr) (h1 : (run boot pre).chosen c = some q)
    (hr2 : (run boot (pre ++ .dispatch c :: mid)).k.entersRr)
    (h2 : (run boot (pre ++ .dispatch c :: mid)).chosen c = some q)
    (hp : (run boot (pre ++ [.dispatch c])).waitsRr p)
    (hstay : Along step (fun s op => s.waitsRr p → (step s op).waitsRr p ∨ s.dispatches p op)
      (run boot (pre ++ [.dispatch c])) mid) :
    ∃ m d m', mid = m ++ .dispatch d :: m' ∧ (run boot (pre ++ .dispatch c :: m)).chosen d = some p := by
  have e1 : run boot (pre ++ [.dispatch c]) = step (run boot pre) (.dispatch c) := by simp [run]
  have e2 (m : List Op) : run boot (pre ++ .dispatch c :: m) = run (step (run boot pre) (.dispatch c)) m := by simp [run]
  rw [e1] at hp hstay
  rw [e2] at hr2 h2
  simp only [e2]
  obtain ⟨-, hf1, hc1⟩ := chosen_some h1
  obtain ⟨-, hf2, hc2⟩ := chosen_some h2
  have hok := run_ok hf1
  have hok' := step_ok hok (free_of_run_free hf2)
  rcases waits_or_dispatched hp hstay with ht | hd
  swap
  · exact hd
  exfalso
  -- the first dispatch leaves the cursor at q + 1
  have hstart : ((step (run boot pre) (.dispatch c)).k.cpu c).nextrrp = q + 1 :=
    (step_chosen hok h1).2.trans (choose_rr hr1 hc1).2
  have hcur := cursor_run (c := c) (q := q) hok' ht hf2 (by rw [hstart]; simp)
  have hloop := (choose_rr hr2 hc2).1
  have hpend : (run (step (run boot pre) (.dispatch c)) mid).waitsRr p := throughout_last ht
  exact (ringFind_some (m := 63) hloop).2 p (ahead_lt_of_between hpq hcur) ⟨hpend.1, hpend.2.2⟩

/-- init and its child share the RR queue, and init has just been preempted -/
def sharedRun : List Op :=
  [.userinit 0, .dispatch 0, .forkAlloc 0, .forkCopy 0, .forkFinish 0, .changeLevel 0 2 1, .yield 0, .dispatch 0, .yield 0]

theorem rr_no_overtaking_sharedRun : (run boot sharedRun).chosen 0 = some 0 ∧
    ∃ m d m', [.yield 0, .dispatch 0, .yield 0] = m ++ .dispatch d :: m' ∧
      (run boot (sharedRun ++ .dispatch 0 :: m)).chosen d = some 1 :=
  ⟨by decide +kernel, rr_no_overtaking sharedRun [.yield 0, .dispatch 0, .yield 0] 0 1 0 (by decide) (by decide +kernel)
    (by decide +kernel) (by decide +kernel) (by decide +kernel) (by decide +kernel) (by decide +kernel)⟩

end Xv6
