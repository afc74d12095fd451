/-
The shape of a process table, kept by every label.

`Tab.Ok`: a CPU's current process is RUNNING, and on that CPU only; before userinit every slot is UNUSED; init and the
parents of processes can still run; no process that can still run would resume inside exit; every process is in one of
the three queues.
-/
import Xv6.Proc.Sections

namespace Xv6

open LockProg Runs

structure Tab.Ok (t : Tab) : Prop where
  running : ∀ c i, t.cpu c = some i → (t.task i).state = .running
  alone : ∀ c d i, t.cpu c = some i → t.cpu d = some i → c = d
  empty : t.init = none → ∀ i, (t.task i).state = .unused
  orphan : ∀ i, (t.task i).state = .unused → (t.task i).parent = none
  init : ∀ m, t.init = some m → (t.task m).live ∧ (t.task m).parent = none
  entered : ∀ i, (t.task i).live → (t.task i).context ≠ .exit
  parent : ∀ i j, (t.task i).parent = some j → (t.task j).live
  self : ∀ i, (t.task i).parent ≠ some i
  queue : ∀ i, (t.task i).state ≠ .unused →
    (t.task i).cls = 1 ∨ (t.task i).cls = 2 ∧ ((t.task i).level = 1 ∨ (t.task i).level = 2)

theorem ok_boot : Kernel.boot.tab.Ok where
  running c i h := by simp [Kernel.boot] at h
  alone c d i h := by simp [Kernel.boot] at h
  empty _ _ := rfl
  orphan _ _ := rfl
  init m h := by simp [Kernel.boot] at h
  entered i h := by simp [Kernel.boot, Proc.zero, Proc.task, Task.live] at h
  parent i j h := by simp [Kernel.boot, Proc.zero, Proc.task] at h
  self i := by simp [Kernel.boot, Proc.zero, Proc.task]
  queue i h := absurd rfl h

variable {t u : Tab} {i : Slot} {x : Task}

/-- the counters, the clock and the cursors do not matter -/
theorem Tab.Ok.congr (h : t.Ok) (ht : u.task = t.task) (hi : u.init = t.init) (hc : u.cpu = t.cpu) : u.Ok := by
  obtain ⟨h1, h2, h3, h4, h5, h6, h7, h8, h9⟩ := h
  constructor <;> simp only [ht, hi, hc] <;> assumption

/-! ## Changing one slot -/

/-- x can replace the task of slot i in a table with that shape -/
structure Tab.Fits (t : Tab) (i : Slot) (x : Task) : Prop where
  running : (∃ c, t.cpu c = some i) → x.state = .running
  started : x.state ≠ .unused → t.init ≠ none
  orphan : x.state = .unused → x.parent = none
  live : (t.task i).live → x.live ∨ t.init ≠ some i ∧ ∀ j, (t.task j).parent ≠ some i
  init : t.init = some i → x.parent = none
  entered : x.live → x.context ≠ .exit
  parent : ∀ j, x.parent = some j → (t.task j).live ∧ j ≠ i
  queue : x.state ≠ .unused → x.cls = 1 ∨ x.cls = 2 ∧ (x.level = 1 ∨ x.level = 2)

theorem ok_setTask (h : t.Ok) (hx : t.Fits i x) : (t.setTask i x).Ok := by
  have cases (P : Slot → Task → Prop) (hi : P i x) (hj : ∀ j, j ≠ i → P j (t.task j)) (j : Slot) :
      P j ((t.setTask i x).task j) := by
    by_cases e : j = i
    · subst e; simpa using hi
    · simpa [e] using hj j e
  refine ⟨?_, h.alone, ?_, ?_, ?_, ?_, ?_, ?_, ?_⟩
  · intro c
    exact cases (fun j y => t.cpu c = some j → y.state = .running) (fun e => hx.running ⟨c, e⟩) fun j _ => h.running c j
  · intro e
    refine cases (fun _ y => y.state = .unused) ?_ fun j _ => h.empty e j
    by_contra hs
    exact hx.started hs e
  · exact cases (fun _ y => y.state = .unused → y.parent = none) hx.orphan fun j _ => h.orphan j
  · refine cases (fun j y => t.init = some j → y.live ∧ y.parent = none) (fun e => ?_) fun j _ => h.init j
    exact ⟨(hx.live (h.init i e).1).resolve_right fun hn => hn.1 e, hx.init e⟩
  · exact cases (fun _ y => y.live → y.context ≠ .exit) hx.entered fun j _ => h.entered j
  · intro j l
    revert j
    refine cases (fun _ y => y.parent = some l → ((t.setTask i x).task l).live) (fun e => ?_) fun j hj e => ?_
    · rw [setTask_ne _ _ _ _ (hx.parent l e).2]; exact (hx.parent l e).1
    · refine cases (fun m y => (t.task j).parent = some m → y.live) (fun e => ?_) (fun m _ => h.parent j m) l e
      exact (hx.live (h.parent j i e)).resolve_right fun hn => hn.2 j e
  · exact cases (fun j y => y.parent ≠ some j) (fun e => (hx.parent i e).2 rfl) fun j _ => h.self j
  · exact cases (fun _ y => y.state ≠ .unused → y.cls = 1 ∨ y.cls = 2 ∧ (y.level = 1 ∨ y.level = 2)) hx.queue
      fun j _ => h.queue j

theorem ok_setCpu_none (h : t.Ok) (c : Cpu) : (t.setCpu c none).Ok := by
  have sub (d : Cpu) (i : Slot) (hd : (t.setCpu c none).cpu d = some i) : t.cpu d = some i := by
    by_cases e : d = c
    · subst e; simp [Tab.setCpu] at hd
    · simpa [Tab.setCpu, e] using hd
  exact ⟨fun d i hd => h.running d i (sub d i hd), fun d e i hd he => h.alone d e i (sub d i hd) (sub e i he), h.empty,
    h.orphan, h.init, h.entered, h.parent, h.self, h.queue⟩

theorem ok_setCpu_some (h : t.Ok) (c : Cpu) (hs : (t.task i).state = .running) (hc : ∀ d, t.cpu d ≠ some i) :
    (t.setCpu c (some i)).Ok := by
  have sub (d : Cpu) (j : Slot) (hd : (t.setCpu c (some i)).cpu d = some j) : d = c ∧ j = i ∨ t.cpu d = some j := by
    by_cases e : d = c
    · subst e; left; simpa [Tab.setCpu, eq_comm] using hd
    · right; simpa [Tab.setCpu, e] using hd
  refine ⟨fun d j hd => ?_, fun d e j hd he => ?_, h.empty, h.orphan, h.init, h.entered, h.parent, h.self,
    h.queue⟩
  · rcases sub d j hd with ⟨-, rfl⟩ | hd
    · exact hs
    · exact h.running d j hd
  · rcases sub d j hd with ⟨hd, hj⟩ | hd <;> rcases sub e j he with ⟨he, hj'⟩ | he
    · exact hd.trans he.symm
    · exact absurd (hj ▸ he) (hc e)
    · exact absurd (hj' ▸ hd) (hc d)
    · exact h.alone d e j hd he

/-! ## Every label keeps the shape -/

theorem Tab.Ok.started (h : t.Ok) (hs : (t.task i).state ≠ .unused) : t.init ≠ none := fun e => hs (h.empty e i)

theorem live_congr {x y : Task} (h : x.state = y.state) : x.live ↔ y.live := by
  unfold Task.live; rw [h]

/-- a change that leaves the state, the parent and the context of a task -/
theorem fits_of_same (h : t.Ok) (hs : x.state = (t.task i).state) (hp : x.parent = (t.task i).parent)
    (hx : x.context = (t.task i).context)
    (hq : x.state ≠ .unused → x.cls = 1 ∨ x.cls = 2 ∧ (x.level = 1 ∨ x.level = 2)) : t.Fits i x where
  running := fun ⟨c, hc⟩ => hs.trans (h.running c i hc)
  started hn := h.started (hs ▸ hn)
  orphan hu := hp.trans (h.orphan i (hs.symm.trans hu))
  live hl := .inl ((live_congr hs).2 hl)
  init hi := hp.trans (h.init i hi).2
  entered hl := hx ▸ h.entered i ((live_congr hs).1 hl)
  parent j hj := ⟨h.parent i j (hp ▸ hj), fun e => h.self i (by rw [← hp, hj, e])⟩
  queue := hq

/-- a live task moves to another live state -/
theorem fits_of_live (h : t.Ok) (hl : (t.task i).live) (hxl : x.live) (hc : (∃ c, t.cpu c = some i) → x.state = .running)
    (hp : x.parent = (t.task i).parent) (hx : x.context ≠ .exit) (h1 : x.cls = (t.task i).cls)
    (h2 : x.level = (t.task i).level) : t.Fits i x where
  running := hc
  started _ := h.started (by rcases hl with e | e | e <;> rw [e] <;> decide)
  orphan hu := by rcases hxl with e | e | e <;> rw [e] at hu <;> cases hu
  live _ := .inl hxl
  init hi := hp.trans (h.init i hi).2
  entered _ := hx
  parent j hj := ⟨h.parent i j (hp ▸ hj), fun e => h.self i (by rw [← hp, hj, e])⟩
  queue _ := by
    rw [h1, h2]
    exact h.queue i (by rcases hl with e | e | e <;> rw [e] <;> decide)

/-- **Every label keeps the shape.** -/
theorem ok_apply {l : Label} (h : t.Ok) (hc : t.can l) : (t.apply l).Ok := by
  have idle {i : Slot} (hs : (t.task i).state ≠ .running) : ¬ ∃ c, t.cpu c = some i := fun ⟨c, e⟩ => hs (h.running c i e)
  have switched {c : Cpu} {i : Slot} (e : t.cpu c = some i) : ¬ ∃ d, (t.setCpu c none).cpu d = some i := by
    rintro ⟨d, hd⟩
    by_cases hdc : d = c
    · subst hdc; simp [Tab.setCpu] at hd
    · exact hdc (h.alone d c i (by simpa [Tab.setCpu, hdc] using hd) e)
  cases l with
  | alloc i =>
    obtain ⟨hs, hi⟩ := hc
    refine (ok_setTask h (i := i)
      (x := { t.task i with state := .embryo, pid := t.nextpid, cls := 2, level := 2, arrival := 0 })
      ⟨fun e => absurd e (idle (by simp [hs])), fun _ => hi, by simp, fun hl => ?_, fun _ => h.orphan i hs, ?_, ?_,
        by simp⟩).congr rfl rfl rfl
    · simp [Task.live, hs] at hl
    · simp [Task.live]
    · simp [h.orphan i hs]
  | abort i =>
    obtain ⟨hs, hp⟩ := hc
    refine ok_setTask h ⟨fun e => absurd e (idle (by simp [hs])), by simp, fun _ => hp, fun hl => ?_, fun _ => hp, ?_, ?_,
      by simp⟩
    · simp [Task.live, hs] at hl
    · simp [Task.live]
    · simp [hp]
  | adopt i j =>
    obtain ⟨hs, hj⟩ := hc
    have hne : j ≠ i := fun e => by rw [e, hs] at hj; cases hj
    refine ok_setTask h ⟨fun e => absurd e (idle (by simp [hs])), fun _ => h.started (i := i) (by simp [hs]), by simp [hs],
      fun hl => ?_, fun hi => ?_, by simp, fun l hl => ?_, fun _ => h.queue i (by simp [hs])⟩
    · simp [Task.live, hs] at hl
    · simpa [Task.live, hs] using (h.init i hi).1
    · obtain rfl : j = l := by simpa using hl
      exact ⟨.inr (.inr hj), hne⟩
  | seed i =>
    obtain ⟨hs, hi⟩ := hc
    have ht : ∀ j, j ≠ i → (t.apply (.seed i)).task j = t.task j := apply_off rfl
    have hself : ((t.apply (.seed i)).task i).state = .runnable ∧ ((t.apply (.seed i)).task i).parent = none ∧
        ((t.apply (.seed i)).task i).context = .forkret ∧ ((t.apply (.seed i)).task i).cls = 2 ∧
        ((t.apply (.seed i)).task i).level = 1 := by simp [Tab.apply, h.orphan i hs, Tab.setTask]
    -- every other slot is still UNUSED
    have hoff (j : Slot) (hj : j ≠ i) : ((t.apply (.seed i)).task j).state = .unused := by rw [ht j hj]; exact h.empty hi j
    have hpar (j : Slot) : ((t.apply (.seed i)).task j).parent = none := by
      by_cases hj : j = i
      · rw [hj]; exact hself.2.1
      · rw [ht j hj]; exact h.orphan j (h.empty hi j)
    refine ⟨fun c j e => ?_, h.alone, by simp [Tab.apply], fun j _ => hpar j, fun m hm => ?_, fun j hl => ?_, fun j l e => ?_,
      fun j => by simp [hpar j], fun j hu => ?_⟩
    · have := h.running c j e
      rw [h.empty hi j] at this; cases this
    · obtain rfl : i = m := by simpa [Tab.apply] using hm
      exact ⟨.inr (.inl hself.1), hself.2.1⟩
    · by_cases hj : j = i
      · subst hj; simp [hself.2.2.1]
      · simp [Task.live, hoff j hj] at hl
    · rw [hpar j] at e; cases e
    · by_cases hj : j = i
      · subst hj; exact .inr ⟨hself.2.2.2.1, .inl hself.2.2.2.2⟩
      · exact absurd (hoff j hj) hu
  | ready i =>
    obtain ⟨hi, hs | ⟨hs, hp, hx⟩⟩ := hc
    · have hf := fits_of_live (x := { t.task i with state := .runnable, arrival := int32 t.ticks }) h (.inl hs)
        (.inr (.inl rfl)) (fun e => absurd e (idle (by simp [hs]))) rfl (h.entered i (.inl hs)) rfl rfl
      refine (ok_setTask h hf).congr ?_ ?_ ?_ <;> simp [Tab.apply]
    · refine (ok_setTask h (i := i) (x := { t.task i with state := .runnable, arrival := int32 t.ticks })
        ⟨fun e => absurd e (idle (by simp [hs])), fun _ => hi, by simp, fun hl => ?_, fun e => ?_, by simp [hx],
          fun j hj => ⟨h.parent i j hj, fun e => h.self i (e ▸ hj)⟩, fun _ => h.queue i (by simp [hs])⟩).congr ?_ ?_ ?_
      · simp [Task.live, hs] at hl
      · exact (h.init i e).2
      all_goals simp [Tab.apply]
  | yield c i =>
    obtain ⟨hs, hcpu⟩ := hc
    have hf := fits_of_live (x := { t.task i with state := .runnable, arrival := int32 t.ticks, context := .yield })
      (ok_setCpu_none h c) (.inr (.inr hs)) (.inr (.inl rfl)) (fun e => absurd e (switched hcpu)) rfl (by simp) rfl rfl
    refine (ok_setTask (ok_setCpu_none h c) hf).congr ?_ ?_ ?_ <;> simp [Tab.apply, Tab.setCpu, Tab.setTask]
  | block c i ch ctx =>
    obtain ⟨hs, hcpu, hctx⟩ := hc
    have hx : ctx ≠ .exit := by rcases hctx with ⟨rfl, -⟩ | ⟨rfl, -⟩ <;> simp
    have hf := fits_of_live (x := { t.task i with state := .sleeping, chan := ch, context := ctx }) (ok_setCpu_none h c)
      (.inr (.inr hs)) (.inl rfl) (fun e => absurd e (switched hcpu)) rfl hx rfl rfl
    exact (ok_setTask (ok_setCpu_none h c) hf).congr rfl rfl rfl
  | run c i n =>
    obtain ⟨hs, -⟩ := hc
    have hok := ok_setTask h (i := i) (x := { t.task i with state := .running }) (fits_of_live h (.inr (.inl hs))
      (.inr (.inr rfl)) (fun _ => rfl) rfl (h.entered i (.inr (.inl hs))) rfl rfl)
    refine (ok_setCpu_some (i := i) hok c (by simp) fun d e => ?_).congr ?_ ?_ ?_
    · exact idle (i := i) (by simp [hs]) ⟨d, e⟩
    all_goals simp [Tab.apply, Tab.setCpu, Tab.setTask, Tab.setCursor]
  | clear i => exact ok_setTask h (fits_of_same h rfl rfl rfl (h.queue i))
  | die c i =>
    obtain ⟨hs, hcpu, hi, hkids, -⟩ := hc
    have hst : t.init ≠ none := h.started (i := i) (by simp [hs])
    refine (ok_setTask (ok_setCpu_none h c) (i := i) (x := { t.task i with state := .zombie, context := .exit })
      ⟨fun e => absurd e (switched hcpu), fun _ => hst, by simp, fun _ => .inr ⟨hi, hkids⟩, fun e => absurd e hi,
        by simp [Task.live], fun j hj => ⟨h.parent i j hj, fun e => h.self i (e ▸ hj)⟩,
        fun _ => h.queue i (by simp [hs])⟩).congr rfl rfl rfl
  | inherit i =>
    obtain ⟨⟨j, hp, hj, hij⟩, -⟩ := hc
    have hs : (t.task i).state ≠ .unused := fun e => by rw [h.orphan i e] at hp; cases hp
    have hm : ∀ m, t.init = some m → m ≠ i := fun m e => by rintro rfl; rw [(h.init m e).2] at hp; cases hp
    refine ok_setTask h ⟨fun ⟨c, e⟩ => h.running c i e, fun _ => h.started hs, fun e => absurd e hs, fun hl => .inl hl,
      fun e => absurd rfl (hm i e), fun hl => h.entered i hl, fun m hm' => ⟨(h.init m hm').1, hm m hm'⟩,
      fun e => h.queue i e⟩
  | reap c i j =>
    obtain ⟨-, -, hs, -⟩ := hc
    refine ok_setTask h ⟨fun e => absurd e (idle (by simp [hs])), by simp, by simp, fun hl => ?_, by simp, by simp [Task.live],
      by simp, by simp⟩
    simp [Task.live, hs] at hl
  | kill i => exact ok_setTask h (fits_of_same h rfl rfl rfl (h.queue i))
  | setDeadline i =>
    refine (ok_setTask h (i := i) (x := { t.task i with level := 0, cls := 1 })
      (fits_of_same h rfl rfl rfl fun _ => .inl rfl)).congr ?_ ?_ ?_ <;> simp [Tab.apply, Tab.setTask]
  | setLevel i l =>
    refine (ok_setTask h (i := i) (x := { t.task i with level := l })
      (fits_of_same h rfl rfl rfl fun e => ?_)).congr ?_ ?_ ?_
    · exact (h.queue i e).imp id fun hq => ⟨hq.1, hc.1⟩
    all_goals simp [Tab.apply, Tab.setTask]
  | execed i =>
    simp only [Tab.apply]
    split_ifs
    · exact ok_setTask h (fits_of_same h rfl rfl rfl fun _ => .inr ⟨rfl, .inl rfl⟩)
    · exact h
  | arrive i n => exact ok_setTask h (fits_of_same h rfl rfl rfl (h.queue i))
  | tick => exact h.congr rfl rfl rfl

end Xv6
