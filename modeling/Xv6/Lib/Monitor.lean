/-
Code that shares data under one spinlock and waits with sleep and wakeup. The processes `ι`, the data `σ`, the labels `Λ`
of the code, the channels `Ch` and the events `E` of the environment are arbitrary.

- `Code`: what the code does at each label (`Act`), and what the environment may do to the data.
- `step`: one operation of one process. Every acquire and release, of the data's lock and of the process table's lock
  inside sleep and wakeup, is a step of its own. A kill sets the flag and wakes the process.
- `Pos`: where a process is. sleep takes the table's lock (`dozing`), gives the data's lock back (`nodding`) and is
  SLEEPING (`asleep`); its CPU gives the table's lock back. A process made RUNNABLE (`woken`) is dispatched with the
  table's lock (`rising`), gives it back (`back`) and takes the data's lock again. wakeup takes the table's lock
  (`waking`), makes every process SLEEPING on the channel RUNNABLE (`waked`) and gives the lock back.

Two rules for a proof, both over assertions at the labels:
- `Keeps M held I A B`: I holds of the data while the lock is free, A i l while process i is at l and has the lock, B i l
  while it is at l, or on its way back to l, without the lock. `kept_step`, `kept_run`: then they hold in every state.
- `Pays M A wait owed quiet`: a process goes to sleep on a channel only while `wait` holds of the data, and code that ends
  `wait` owes a wakeup (`owed`) until it has called it. It must not give the lock back before. An access that drops the
  debt is `quiet`, and a `Calm` step takes one only if no process waits. `paid_step`, `paid_along`: along Calm steps no
  wakeup is lost: while the lock is free, `wait` holds for every process that waits.
-/
import Xv6.Lib.Runs

namespace Xv6.Monitor

open Runs Function

/-! ## Code and states -/

inductive Act (ι σ Λ Ch : Type) where
  /-- outside: a call may begin at a label that `enter` allows -/
  | call (enter : ι → Λ → σ → Option σ)
  | acquire (next : Λ)
  | release (next : Λ)
  /-- one access to the data, by a process with this killed flag -/
  | access (f : ι → Bool → σ → σ × Λ)
  | sleep (ch : Ch) (next : Λ)
  | wakeup (ch : Ch) (next : Λ)

structure Code (ι σ Λ Ch E : Type) where
  act : Λ → Act ι σ Λ Ch
  env : E → σ → σ

inductive Pos (Λ Ch : Type) where
  | run (l : Λ)
  | dozing (ch : Ch) (l : Λ)
  | nodding (ch : Ch) (l : Λ)
  | asleep (ch : Ch) (l : Λ)
  | woken (l : Λ)
  | rising (l : Λ)
  | back (l : Λ)
  | waking (l : Λ)
  | waked (l : Λ)
deriving DecidableEq

structure St (ι σ Λ Ch : Type) where
  data : σ
  lock : Option ι
  ptable : Option ι
  killed : ι → Bool
  pos : ι → Pos Λ Ch

inductive Op (ι Λ E : Type) where
  | call (i : ι) (l : Λ)
  | go (i : ι)
  | kill (i : ι)
  | env (e : E)

variable {ι σ Λ Ch E : Type} [DecidableEq ι]

section Move

variable {s : St ι σ Λ Ch}

def St.move (s : St ι σ Λ Ch) (i : ι) (p : Pos Λ Ch) : St ι σ Λ Ch := { s with pos := update s.pos i p }

@[simp] theorem move_data (i : ι) (p : Pos Λ Ch) : (s.move i p).data = s.data := rfl

@[simp] theorem move_lock (i : ι) (p : Pos Λ Ch) : (s.move i p).lock = s.lock := rfl

@[simp] theorem move_ptable (i : ι) (p : Pos Λ Ch) : (s.move i p).ptable = s.ptable := rfl

@[simp] theorem move_self (i : ι) (p : Pos Λ Ch) : (s.move i p).pos i = p := by simp [St.move]

theorem move_of_ne {i j : ι} (p : Pos Λ Ch) (h : j ≠ i) : (s.move i p).pos j = s.pos j := by simp [St.move, h]

end Move

/-- SLEEPING becomes RUNNABLE -/
def Pos.wake : Pos Λ Ch → Pos Λ Ch
  | .asleep _ l => .woken l
  | p => p

/-- wakeup1's effect on one process -/
def Pos.wakeOn [DecidableEq Ch] (ch : Ch) : Pos Λ Ch → Pos Λ Ch
  | .asleep c l => if c = ch then .woken l else .asleep c l
  | p => p

/-! ## Steps -/

/-- wakeup1 on the channel, called by process i -/
def St.wakes [DecidableEq Ch] (s : St ι σ Λ Ch) (i : ι) (ch : Ch) (next : Λ) : St ι σ Λ Ch :=
  { s with pos := update (fun j => (s.pos j).wakeOn ch) i (.waked next) }

/-- the next operation of process i at label l -/
def St.exec (s : St ι σ Λ Ch) (i : ι) (l : Λ) : Act ι σ Λ Ch → St ι σ Λ Ch
  | .call _ => s
  | .acquire next => if s.lock = none then { s.move i (.run next) with lock := some i } else s
  | .release next => { s.move i (.run next) with lock := none }
  | .access f => { s.move i (.run (f i (s.killed i) s.data).2) with data := (f i (s.killed i) s.data).1 }
  | .sleep ch next => if s.ptable = none then { s.move i (.dozing ch next) with ptable := some i } else s
  | .wakeup _ _ => if s.ptable = none then { s.move i (.waking l) with ptable := some i } else s

/-- the next operation of process i -/
def St.go [DecidableEq Ch] (M : Code ι σ Λ Ch E) (s : St ι σ Λ Ch) (i : ι) : St ι σ Λ Ch :=
  match s.pos i with
  | .run l => s.exec i l (M.act l)
  | .dozing ch l => { s.move i (.nodding ch l) with lock := none }
  | .nodding ch l => s.move i (.asleep ch l)
  | .asleep _ _ => if s.ptable = some i then { s with ptable := none } else s
  | .woken l => if s.ptable = none then { s.move i (.rising l) with ptable := some i } else s
  | .rising l => { s.move i (.back l) with ptable := none }
  | .back l => if s.lock = none then { s.move i (.run l) with lock := some i } else s
  | .waking l =>
    match M.act l with
    | .wakeup ch next => s.wakes i ch next
    | _ => s
  | .waked l => { s.move i (.run l) with ptable := none }

/-- process i, outside, calls the code at label l -/
def St.begin (M : Code ι σ Λ Ch E) (s : St ι σ Λ Ch) (i : ι) (l : Λ) : St ι σ Λ Ch :=
  match s.pos i with
  | .run m =>
    match M.act m with
    | .call enter =>
      match enter i l s.data with
      | some d => { s.move i (.run l) with data := d }
      | none => s
    | _ => s
  | _ => s

def step [DecidableEq Ch] (M : Code ι σ Λ Ch E) (s : St ι σ Λ Ch) : Op ι Λ E → St ι σ Λ Ch
  | .call i l => s.begin M i l
  | .go i => s.go M i
  | .kill i =>
    if s.ptable = none then { s.move i (s.pos i).wake with killed := update s.killed i true } else s
  | .env e => { s with data := M.env e s.data }

def run [DecidableEq Ch] (M : Code ι σ Λ Ch E) (s : St ι σ Λ Ch) (ops : List (Op ι Λ E)) : St ι σ Λ Ch :=
  ops.foldl (step M) s

/-- every process at label l, both locks free -/
def start (d : σ) (l : Λ) : St ι σ Λ Ch := ⟨d, none, none, fun _ => false, fun _ => .run l⟩

variable {M : Code ι σ Λ Ch E} {s s' : St ι σ Λ Ch} {p : Pos Λ Ch} {l : Λ} {ch : Ch} {i : ι}

/-- a call that begins moves its process from one outer label to another -/
theorem begin_cases (i : ι) (l : Λ) : s.begin M i l = s ∨ ∃ m enter d, s.pos i = .run m ∧ M.act m = .call enter ∧
    enter i l s.data = some d ∧ s.begin M i l = { s.move i (.run l) with data := d } := by
  unfold St.begin
  cases hp : s.pos i with
  | run m =>
    simp only
    cases ha : M.act m with
    | call enter =>
      simp only
      cases he : enter i l s.data with
      | none => exact .inl rfl
      | some d => exact .inr ⟨m, enter, d, rfl, ha, he, rfl⟩
    | _ => exact .inl rfl
  | _ => exact .inl rfl

/-! ## The process table's lock -/

/-- the process is inside sleep or wakeup with the table's lock -/
def Pos.locksTable : Pos Λ Ch → Prop
  | .dozing _ _ | .nodding _ _ | .rising _ | .waking _ | .waked _ => True
  | .run _ | .asleep _ _ | .woken _ | .back _ => False

/-- who is inside with the table's lock has it -/
def TableOk (s : St ι σ Λ Ch) : Prop := ∀ i, (s.pos i).locksTable → s.ptable = some i

@[simp] theorem locksTable_wake (p : Pos Λ Ch) : p.wake.locksTable ↔ p.locksTable := by cases p <;> rfl

@[simp] theorem locksTable_wakeOn [DecidableEq Ch] (ch : Ch) (p : Pos Λ Ch) : (p.wakeOn ch).locksTable ↔ p.locksTable := by
  cases p <;> simp only [Pos.wakeOn]
  split_ifs <;> rfl

/-- process i moves: it alone can have had the table's lock, or it has it now -/
theorem table_move (h : TableOk s) (i : ι) (hpos : ∀ j, j ≠ i → (s'.pos j).locksTable → (s.pos j).locksTable)
    (hi : (s'.pos i).locksTable → s'.ptable = some i) (ht : s'.ptable = s.ptable ∨ s.ptable = none ∨ s.ptable = some i) :
    TableOk s' := by
  intro j hj
  by_cases e : j = i
  · rw [e] at hj ⊢; exact hi hj
  · have hs := h j (hpos j e hj)
    rcases ht with ht | ht | ht
    · rw [ht, hs]
    · rw [ht] at hs; cases hs
    · rw [ht] at hs; exact absurd (Option.some.inj hs).symm e

theorem table_exec (h : TableOk s) (i : ι) (l : Λ) (a : Act ι σ Λ Ch) : TableOk (s.exec i l a) := by
  have off (p : Pos Λ Ch) (j : ι) (e : j ≠ i) (hj : ((s.move i p).pos j).locksTable) : (s.pos j).locksTable := by
    rwa [move_of_ne p e] at hj
  cases a with
  | call _ => exact h
  | acquire next =>
    simp only [St.exec]
    split_ifs
    · exact table_move h i (off _) (by simp [Pos.locksTable]) (.inl rfl)
    · exact h
  | release next | access f => exact table_move h i (off _) (by simp [St.exec, Pos.locksTable]) (.inl rfl)
  | sleep ch next | wakeup ch next =>
    simp only [St.exec]
    split_ifs with ht
    · exact table_move h i (off _) (fun _ => rfl) (.inr (.inl ht))
    · exact h

theorem table_go [DecidableEq Ch] (h : TableOk s) (i : ι) : TableOk (s.go M i) := by
  have off (p : Pos Λ Ch) (j : ι) (e : j ≠ i) (hj : ((s.move i p).pos j).locksTable) : (s.pos j).locksTable := by
    rwa [move_of_ne p e] at hj
  have hi := h i
  unfold St.go
  cases hp : s.pos i with
  | run l => exact table_exec h i l _
  | dozing ch l => exact table_move h i (off _) (fun _ => hi (by rw [hp]; trivial)) (.inl rfl)
  | nodding ch l => exact table_move h i (off _) (by simp [Pos.locksTable]) (.inl rfl)
  | asleep ch l =>
    simp only
    split_ifs with ht
    · exact table_move h i (fun _ _ hj => hj) (by simp [hp, Pos.locksTable]) (.inr (.inr ht))
    · exact h
  | woken l =>
    simp only
    split_ifs with ht
    · exact table_move h i (off _) (fun _ => rfl) (.inr (.inl ht))
    · exact h
  | rising l =>
    exact table_move h i (off _) (by simp [Pos.locksTable]) (.inr (.inr (hi (by rw [hp]; trivial))))
  | back l =>
    simp only
    split_ifs
    · exact table_move h i (off _) (by simp [Pos.locksTable]) (.inl rfl)
    · exact h
  | waking l =>
    simp only
    split
    · refine table_move h i (fun j e hj => ?_) (fun _ => hi (by rw [hp]; trivial)) (.inl rfl)
      simpa [St.wakes, e] using hj
    · exact h
  | waked l =>
    exact table_move h i (off _) (by simp [Pos.locksTable]) (.inr (.inr (hi (by rw [hp]; trivial))))

theorem table_step [DecidableEq Ch] (h : TableOk s) (op : Op ι Λ E) : TableOk (step M s op) := by
  cases op with
  | call i l =>
    rcases begin_cases (M := M) (s := s) i l with e | ⟨m, enter, d, -, -, -, e⟩
    · rw [step, e]; exact h
    · rw [step, e]
      exact table_move h i (fun j e hj => by rwa [← move_of_ne _ e]) (by simp [Pos.locksTable]) (.inl rfl)
  | go i => exact table_go h i
  | kill i =>
    simp only [step]
    split_ifs with ht
    · refine table_move h i (fun j e hj => by rwa [← move_of_ne _ e]) (fun hj => ?_) (.inl rfl)
      have hi : (s.pos i).locksTable := by simpa using hj
      exact h i hi
    · exact h
  | env e => exact h

/-! ## Assertions at the labels -/

section Keeps

variable (held : Λ → Prop) (I : σ → Prop) (A B : ι → Λ → σ → Prop)

/-- what one act has to keep, at the label l -/
def KeepsAct (l : Λ) : Act ι σ Λ Ch → Prop
  | .call enter => ¬ held l ∧ ∀ i next d d', enter i next d = some d' → ¬ held next ∧ (I d → I d') ∧
      (B i l d → B i next d') ∧ ∀ j, j ≠ i → ∀ m, (A j m d → A j m d') ∧ (B j m d → B j m d')
  | .acquire next => ¬ held l ∧ held next ∧ ∀ i d, I d → B i l d → A i next d
  | .release next => held l ∧ ¬ held next ∧ ∀ i d, A i l d → I d ∧ B i next d
  | .access f => held l ∧ ∀ i b d, A i l d → held (f i b d).2 ∧ A i (f i b d).2 (f i b d).1 ∧
      ∀ j, j ≠ i → ∀ m, B j m d → B j m (f i b d).1
  | .sleep _ next => held l ∧ held next ∧ (∀ i d, A i l d → I d ∧ B i next d) ∧ ∀ i d, I d → B i next d → A i next d
  | .wakeup _ next => held l ∧ held next ∧ ∀ i d, A i l d → A i next d

/-- the code keeps I while the lock is free, A i l at l with the lock, B i l at l without it -/
structure Keeps (M : Code ι σ Λ Ch E) : Prop where
  act : ∀ l, KeepsAct held I A B l (M.act l)
  env : ∀ e d, (I d → I (M.env e d)) ∧ ∀ i l, (A i l d → A i l (M.env e d)) ∧ (B i l d → B i l (M.env e d))

/-- the process has the data's lock -/
def Pos.holds : Pos Λ Ch → Prop
  | .run l => held l
  | .dozing _ _ | .waking _ | .waked _ => True
  | .nodding _ _ | .asleep _ _ | .woken _ | .rising _ | .back _ => False

/-- a process may wait for the lock and go on at l -/
def Resumes (l : Λ) : Prop := held l ∧ ∀ i d, I d → B i l d → A i l d

/-- what holds of the data while process i is at this position -/
def Pos.fact (i : ι) (d : σ) : Pos Λ Ch → Prop
  | .run l => (held l → A i l d) ∧ (¬ held l → B i l d)
  | .dozing _ l => I d ∧ B i l d ∧ Resumes held I A B l
  | .nodding _ l | .asleep _ l | .woken l | .rising l | .back l => B i l d ∧ Resumes held I A B l
  | .waking l | .waked l => held l ∧ A i l d

structure Kept (s : St ι σ Λ Ch) : Prop where
  lock : ∀ i, (s.pos i).holds held ↔ s.lock = some i
  free : s.lock = none → I s.data
  fact : ∀ i, (s.pos i).fact held I A B i s.data

variable {held I A B}

@[simp] theorem holds_wake (p : Pos Λ Ch) : p.wake.holds held ↔ p.holds held := by cases p <;> rfl

@[simp] theorem holds_wakeOn [DecidableEq Ch] (ch : Ch) (p : Pos Λ Ch) : (p.wakeOn ch).holds held ↔ p.holds held := by
  cases p <;> simp only [Pos.wakeOn]
  split_ifs <;> rfl

omit [DecidableEq ι] in
@[simp] theorem fact_wake (i : ι) (d : σ) (p : Pos Λ Ch) : p.wake.fact held I A B i d ↔ p.fact held I A B i d := by
  cases p <;> rfl

omit [DecidableEq ι] in
@[simp] theorem fact_wakeOn [DecidableEq Ch] (ch : Ch) (i : ι) (d : σ) (p : Pos Λ Ch) :
    (p.wakeOn ch).fact held I A B i d ↔ p.fact held I A B i d := by
  cases p <;> simp only [Pos.wakeOn]
  split_ifs <;> rfl

omit [DecidableEq ι] in
/-- what changes the data without the lock keeps every position's fact -/
theorem fact_mono {d d' : σ} (hI : I d → I d') (hAB : ∀ l, (A i l d → A i l d') ∧ (B i l d → B i l d'))
    (h : p.fact held I A B i d) : p.fact held I A B i d' := by
  cases p with
  | run l => exact ⟨fun hl => (hAB l).1 (h.1 hl), fun hl => (hAB l).2 (h.2 hl)⟩
  | dozing ch l => exact ⟨hI h.1, (hAB l).2 h.2.1, h.2.2⟩
  | waking l | waked l => exact ⟨h.1, (hAB l).1 h.2⟩
  | nodding ch l | asleep ch l | woken l | rising l | back l => exact ⟨(hAB l).2 h.1, h.2⟩

omit [DecidableEq ι] in
/-- an access under the lock keeps the facts of the positions without it -/
theorem fact_outside {d d' : σ} (hB : ∀ l, B i l d → B i l d') (hp : ¬ p.holds held)
    (h : p.fact held I A B i d) : p.fact held I A B i d' := by
  cases p with
  | run l => exact ⟨fun hl => absurd hl hp, fun hl => hB l (h.2 hl)⟩
  | dozing ch l | waking l | waked l => exact absurd trivial hp
  | nodding ch l | asleep ch l | woken l | rising l | back l => exact ⟨hB l h.1, h.2⟩

/-- process i moves to a position with its fact; the facts of the others stay -/
theorem kept_move (h : Kept held I A B s) (i : ι) (hpos : ∀ j, j ≠ i → s'.pos j = s.pos j)
    (hlock : (s'.pos i).holds held ↔ s'.lock = some i) (hother : ∀ j, j ≠ i → (s.lock = some j ↔ s'.lock = some j))
    (hfree : s'.lock = none → I s'.data) (hfact : (s'.pos i).fact held I A B i s'.data)
    (hfacts : ∀ j, j ≠ i → (s.pos j).fact held I A B j s.data → (s.pos j).fact held I A B j s'.data) :
    Kept held I A B s' where
  lock j := by
    by_cases e : j = i
    · rw [e]; exact hlock
    · rw [hpos j e, h.lock j]; exact hother j e
  free := hfree
  fact j := by
    by_cases e : j = i
    · rw [e]; exact hfact
    · rw [hpos j e]; exact hfacts j e (h.fact j)

/-- process i moves, and neither the lock nor the data change -/
theorem kept_stay (h : Kept held I A B s) (i : ι) (hpos : ∀ j, j ≠ i → s'.pos j = s.pos j) (hl : s'.lock = s.lock)
    (hd : s'.data = s.data) (hlock : (s'.pos i).holds held ↔ (s.pos i).holds held)
    (hfact : (s'.pos i).fact held I A B i s.data) : Kept held I A B s' := by
  refine kept_move h i hpos ?_ (fun j _ => by rw [hl]) ?_ (by rwa [hd]) (fun j _ hj => by rwa [hd])
  · rw [hlock, hl]; exact h.lock i
  · rw [hl, hd]; exact h.free

/-- process i takes the free lock -/
theorem kept_take (h : Kept held I A B s) (i : ι) (hn : s.lock = none) (hl : held l) (ha : A i l s.data) :
    Kept held I A B { s.move i (.run l) with lock := some i } := by
  refine kept_move h i (fun j e => move_of_ne _ e) (by simp [Pos.holds, hl]) (fun j e => ?_) (by simp) ?_ (fun j _ hj => hj)
  · rw [hn]; simpa using Ne.symm e
  · rw [show ({ s.move i (.run l) with lock := some i } : St ι σ Λ Ch).pos i = .run l from move_self i _]
    exact ⟨fun _ => ha, fun hc => absurd hl hc⟩

/-- process i gives its lock back -/
theorem kept_give (h : Kept held I A B s) (i : ι) (ho : s.lock = some i) (hp : ¬ p.holds held)
    (hI : I s.data) (hf : p.fact held I A B i s.data) : Kept held I A B { s.move i p with lock := none } := by
  refine kept_move h i (fun j e => move_of_ne _ e) (by simp [hp]) (fun j e => ?_) (fun _ => hI) (by simpa using hf)
    (fun j _ hj => hj)
  rw [ho]; simpa using Ne.symm e

/-- wakeup1 moves SLEEPING processes to positions with the same facts -/
theorem kept_wakes [DecidableEq Ch] (h : Kept held I A B s) {next : Λ} (hp : (s.pos i).holds held)
    (hn : held next) (ha : A i next s.data) : Kept held I A B (s.wakes i ch next) := by
  have hw : Kept held I A B { s with pos := fun j => (s.pos j).wakeOn ch } :=
    ⟨fun j => by simpa using h.lock j, h.free, fun j => by simpa using h.fact j⟩
  refine kept_stay hw i (fun j e => by simp [St.wakes, e]) rfl rfl ?_ ?_
  · simp only [St.wakes, update_self, holds_wakeOn]
    exact ⟨fun _ => hp, fun _ => trivial⟩
  · simp only [St.wakes, update_self]
    exact ⟨hn, ha⟩

theorem kept_exec (hK : Keeps held I A B M) (h : Kept held I A B s) (hp : s.pos i = .run l) :
    Kept held I A B (s.exec i l (M.act l)) := by
  have hact := hK.act l
  have hf := h.fact i
  have hh := h.lock i
  rw [hp] at hf hh
  cases ha : M.act l with
  | call enter => exact h
  | acquire next =>
    rw [ha] at hact
    obtain ⟨hl, hn, hA⟩ := hact
    simp only [St.exec]
    split_ifs with hfree
    · exact kept_take h i hfree hn (hA i _ (h.free hfree) (hf.2 hl))
    · exact h
  | release next =>
    rw [ha] at hact
    obtain ⟨hl, hn, hA⟩ := hact
    obtain ⟨hI, hB⟩ := hA i _ (hf.1 hl)
    exact kept_give h i (hh.1 hl) hn hI ⟨fun hc => absurd hc hn, fun _ => hB⟩
  | access f =>
    rw [ha] at hact
    obtain ⟨hl, hA⟩ := hact
    obtain ⟨hn, hA', hB⟩ := hA i (s.killed i) s.data (hf.1 hl)
    have ho : s.lock = some i := hh.1 hl
    refine kept_move h i (fun j e => move_of_ne _ e) ?_ (fun j _ => Iff.rfl) ?_ ?_ (fun j e hj => ?_)
    · simp [St.exec, Pos.holds, hn, ho]
    · simp [St.exec, ho]
    · simp only [St.exec, move_self]
      exact ⟨fun _ => hA', fun hc => absurd hn hc⟩
    · refine fact_outside (hB j e) (fun hc => e ?_) hj
      rw [h.lock j, ho] at hc
      exact (Option.some.inj hc).symm
  | sleep ch next =>
    rw [ha] at hact
    obtain ⟨hl, hn, hA, hr⟩ := hact
    simp only [St.exec]
    split_ifs
    · obtain ⟨hI, hB⟩ := hA i _ (hf.1 hl)
      refine kept_stay h i (fun j e => move_of_ne _ e) rfl rfl ?_ ?_
      · simp [Pos.holds, hp, hl]
      · simp only [move_self]
        exact ⟨hI, hB, hn, hr⟩
    · exact h
  | wakeup ch next =>
    rw [ha] at hact
    have hl := hact.1
    simp only [St.exec]
    split_ifs
    · refine kept_stay h i (fun j e => move_of_ne _ e) rfl rfl ?_ ?_
      · simp [Pos.holds, hp, hl]
      · simp only [move_self]
        exact ⟨hl, hf.1 hl⟩
    · exact h

theorem kept_go [DecidableEq Ch] (hK : Keeps held I A B M) (h : Kept held I A B s) (i : ι) :
    Kept held I A B (s.go M i) := by
  have hf := h.fact i
  have hh := h.lock i
  unfold St.go
  cases hp : s.pos i with
  | run l => exact kept_exec hK h hp
  | dozing ch l =>
    rw [hp] at hf hh
    exact kept_give h i (hh.1 trivial) (by simp [Pos.holds]) hf.1 hf.2
  | nodding ch l =>
    rw [hp] at hf
    exact kept_stay h i (fun j e => move_of_ne _ e) rfl rfl (by simp [hp, Pos.holds]) (by rw [move_self]; exact hf)
  | asleep ch l =>
    simp only
    split_ifs
    · exact ⟨h.lock, h.free, h.fact⟩
    · exact h
  | woken l =>
    rw [hp] at hf
    simp only
    split_ifs
    · refine kept_stay h i (fun j e => move_of_ne _ e) rfl rfl (by simp [hp, Pos.holds]) ?_
      simp only [move_self]
      exact hf
    · exact h
  | rising l =>
    rw [hp] at hf
    refine kept_stay h i (fun j e => move_of_ne _ e) rfl rfl (by simp [hp, Pos.holds]) ?_
    simp only [move_self]
    exact hf
  | back l =>
    rw [hp] at hf
    simp only
    split_ifs with hfree
    · exact kept_take h i hfree hf.2.1 (hf.2.2 i _ (h.free hfree) hf.1)
    · exact h
  | waking l =>
    rw [hp] at hf
    have hact := hK.act l
    simp only
    cases ha : M.act l with
    | wakeup ch next =>
      rw [ha] at hact
      exact kept_wakes h (by simp [hp, Pos.holds]) hact.2.1 (hact.2.2 i _ hf.2)
    | _ => exact h
  | waked l =>
    rw [hp] at hf
    refine kept_stay h i (fun j e => move_of_ne _ e) rfl rfl (by simp [hp, Pos.holds, hf.1]) ?_
    simp only [move_self]
    exact ⟨fun _ => hf.2, fun hc => absurd hf.1 hc⟩

/-- **The assertions hold after every step.** -/
theorem kept_step [DecidableEq Ch] (hK : Keeps held I A B M) (h : Kept held I A B s) (op : Op ι Λ E) :
    Kept held I A B (step M s op) := by
  cases op with
  | call i l =>
    rcases begin_cases (M := M) (s := s) i l with e | ⟨m, enter, d, hp, ha, he, e⟩
    · rw [step, e]; exact h
    · have hact := hK.act m
      have hf := h.fact i
      have hh := h.lock i
      rw [ha] at hact
      rw [hp] at hf hh
      obtain ⟨hm, hent⟩ := hact
      obtain ⟨hl, hI, hB, hoth⟩ := hent i l s.data d he
      rw [step, e]
      refine kept_move h i (fun j e => move_of_ne _ e) ?_ (fun j _ => Iff.rfl) (fun hn => hI (h.free hn)) ?_ (fun j e hj => ?_)
      · have hne : s.lock ≠ some i := fun hc => hm (hh.2 hc)
        simp [Pos.holds, hl, hne]
      · simp only [move_self]
        exact ⟨fun hc => absurd hc hl, fun _ => hB (hf.2 hm)⟩
      · exact fact_mono hI (hoth j e) hj
  | go i => exact kept_go hK h i
  | kill i =>
    simp only [step]
    split_ifs
    · exact kept_stay h i (fun j e => move_of_ne _ e) rfl rfl (by simp) (by simpa using h.fact i)
    · exact h
  | env e =>
    obtain ⟨hI, hAB⟩ := hK.env e s.data
    exact ⟨h.lock, fun hn => hI (h.free hn), fun i => fact_mono hI (hAB i) (h.fact i)⟩

theorem kept_run [DecidableEq Ch] (hK : Keeps held I A B M) (h : Kept held I A B s) (ops : List (Op ι Λ E)) :
    Kept held I A B (run M s ops) := by
  induction ops generalizing s with
  | nil => exact h
  | cons op ops ih => exact ih (kept_step hK h op)

omit [DecidableEq ι] in
theorem kept_start {d : σ} (hI : I d) (hl : ¬ held l) (hB : ∀ i, B i l d) :
    Kept held I A B (start d l : St ι σ Λ Ch) :=
  ⟨fun i => by simp [start, Pos.holds, hl], fun _ => hI, fun i => ⟨fun hc => absurd hc hl, fun _ => hB i⟩⟩

omit [DecidableEq ι] in
/-- what I and every assertion at a label imply holds of the data in every state, whoever has the lock -/
theorem data_of_kept (h : Kept held I A B s) {P : σ → Prop} (hI : I s.data → P s.data)
    (hA : ∀ i l, held l → A i l s.data → P s.data) : P s.data := by
  cases hl : s.lock with
  | none => exact hI (h.free hl)
  | some i =>
    have hh := (h.lock i).2 hl
    have hf := h.fact i
    cases hp : s.pos i with
    | run l => rw [hp] at hf hh; exact hA i l hh (hf.1 hh)
    | dozing ch l => rw [hp] at hf; exact hI hf.1
    | waking l | waked l => rw [hp] at hf; exact hA i l hf.1 hf.2
    | _ => rw [hp] at hh; exact absurd hh id

end Keeps

/-! ## Debts of wakeups -/

section Pays

variable (A : ι → Λ → σ → Prop) (wait : Ch → σ → Prop) (owed : Λ → Ch → Prop) (quiet : Λ → Bool → σ → Ch → Prop)

/-- what one act has to do about its wakeups, at the label l -/
def PaysAct (l : Λ) : Act ι σ Λ Ch → Prop
  | .call enter => ∀ i next d d', enter i next d = some d' → ∀ ch, wait ch d → wait ch d'
  | .acquire _ => True
  | .release _ => ∀ ch, ¬ owed l ch
  | .access f => ∀ i b d, A i l d → ∀ ch, ¬ owed (f i b d).2 ch →
      quiet l b d ch ∨ ¬ owed l ch ∧ (wait ch d → wait ch (f i b d).1)
  | .sleep ch _ => (∀ i d, A i l d → wait ch d) ∧ ∀ c, ¬ owed l c
  | .wakeup ch next => ∀ c, owed l c → c = ch ∨ owed next c

structure Pays (M : Code ι σ Λ Ch E) : Prop where
  act : ∀ l, PaysAct A wait owed quiet l (M.act l)
  env : ∀ e d ch, wait ch d → wait ch (M.env e d)

/-- the process is in sleep on the channel and not woken yet -/
def Pos.waitsOn (ch : Ch) : Pos Λ Ch → Prop
  | .nodding c _ | .asleep c _ => c = ch
  | .run _ | .dozing _ _ | .woken _ | .rising _ | .back _ | .waking _ | .waked _ => False

/-- the process still has to wake the channel -/
def Pos.owes (ch : Ch) : Pos Λ Ch → Prop
  | .run l | .waking l | .waked l => owed l ch
  | .dozing _ _ | .nodding _ _ | .asleep _ _ | .woken _ | .rising _ | .back _ => False

structure Paid (s : St ι σ Λ Ch) : Prop where
  dozing : ∀ i ch l, s.pos i = .dozing ch l → wait ch s.data
  waiting : ∀ j ch, (s.pos j).waitsOn ch → wait ch s.data ∨ ∃ i, s.lock = some i ∧ (s.pos i).owes owed ch

/-- the step is no quiet access while a process waits for the wakeup it drops -/
def Calm (M : Code ι σ Λ Ch E) (s : St ι σ Λ Ch) : Op ι Λ E → Prop
  | .go i => ∀ l f, s.pos i = .run l → M.act l = .access f → ∀ ch, quiet l (s.killed i) s.data ch →
      ∀ j, ¬ (s.pos j).waitsOn ch
  | .call _ _ | .kill _ | .env _ => True

variable {A wait owed quiet}

theorem waitsOn_wake (h : p.wake.waitsOn ch) : p.waitsOn ch := by
  cases p with
  | asleep c l => exact absurd h id
  | _ => exact h

theorem owes_wake : p.wake.owes owed ch ↔ p.owes owed ch := by
  cases p <;> rfl

theorem waitsOn_wakeOn [DecidableEq Ch] {ch c : Ch} (h : (p.wakeOn ch).waitsOn c) :
    p.waitsOn c ∧ (c = ch → p.locksTable) := by
  cases p with
  | nodding _ _ => exact ⟨h, fun _ => trivial⟩
  | asleep c' l =>
    simp only [Pos.wakeOn] at h
    split_ifs at h with e
    · exact absurd h id
    · exact ⟨h, fun e' => absurd ((show c' = c from h).trans e') e⟩
  | _ => exact absurd h id

theorem owes_wakeOn [DecidableEq Ch] {ch c : Ch} : (p.wakeOn ch).owes owed c ↔ p.owes owed c := by
  cases p <;> simp only [Pos.wakeOn]
  split_ifs <;> rfl

theorem dozing_wakeOn [DecidableEq Ch] {ch c : Ch} (h : p.wakeOn ch = .dozing c l) :
    p = .dozing c l := by
  cases p with
  | asleep c' m =>
    simp only [Pos.wakeOn] at h
    split_ifs at h
  | _ => exact h

/-- process i moves, and the data stay: it pays its debts, or keeps them -/
theorem paid_move (h : Paid wait owed s) (i : ι) (hpos : ∀ j, j ≠ i → s'.pos j = s.pos j) (hd : s'.data = s.data)
    (hdoze : ∀ ch l, s'.pos i = .dozing ch l → wait ch s.data)
    (hwaits : ∀ ch, (s'.pos i).waitsOn ch → wait ch s.data ∨ (s.pos i).waitsOn ch)
    (hdebt : ∀ ch j, s.lock = some j → (s.pos j).owes owed ch → s'.lock = some j ∧ (s'.pos j).owes owed ch) :
    Paid wait owed s' where
  dozing j ch l hj := by
    rw [hd]
    by_cases e : j = i
    · rw [e] at hj; exact hdoze ch l hj
    · rw [hpos j e] at hj; exact h.dozing j ch l hj
  waiting j ch hj := by
    have hold : wait ch s.data ∨ (s.pos j).waitsOn ch := by
      by_cases e : j = i
      · rw [e] at hj ⊢; exact hwaits ch hj
      · rw [hpos j e] at hj; exact .inr hj
    rw [hd]
    rcases hold with hw | hold
    · exact .inl hw
    rcases h.waiting j ch hold with hw | ⟨o, ho, hc⟩
    · exact .inl hw
    · exact .inr ⟨o, hdebt ch o ho hc⟩

/-- process i moves, keeps its debts, and neither sleeps nor wakes anybody -/
theorem paid_stay (h : Paid wait owed s) (i : ι) (hpos : ∀ j, j ≠ i → s'.pos j = s.pos j) (hd : s'.data = s.data)
    (hl : s'.lock = s.lock) (hdoze : ∀ ch l, s'.pos i = .dozing ch l → wait ch s.data)
    (hwaits : ∀ ch, (s'.pos i).waitsOn ch → (s.pos i).waitsOn ch)
    (howes : ∀ ch, (s.pos i).owes owed ch → (s'.pos i).owes owed ch) : Paid wait owed s' := by
  refine paid_move h i hpos hd hdoze (fun ch hc => .inr (hwaits ch hc)) (fun ch j ho hc => ⟨by rw [hl, ho], ?_⟩)
  by_cases e : j = i
  · rw [e] at hc ⊢; exact howes ch hc
  · rwa [hpos j e]

/-- process i takes the free lock: nobody owed anything -/
theorem paid_take (h : Paid wait owed s) (i : ι) (hn : s.lock = none) :
    Paid wait owed { s.move i (.run l) with lock := some i } := by
  refine paid_move h i (fun j e => move_of_ne _ e) rfl (fun ch m hc => ?_) (fun ch hc => ?_) (fun ch j ho _ => ?_)
  · simp at hc
  · simp [Pos.waitsOn] at hc
  · rw [hn] at ho; cases ho

/-- process i, which owes nothing, gives its lock back -/
theorem paid_give (h : Paid wait owed s) (i : ι) (ho : s.lock = some i)
    (hn : ∀ ch, ¬ (s.pos i).owes owed ch) (hdoze : ∀ ch l, p ≠ .dozing ch l) (hwaits : ∀ ch, p.waitsOn ch → wait ch s.data) :
    Paid wait owed { s.move i p with lock := none } := by
  refine paid_move h i (fun j e => move_of_ne _ e) rfl (fun ch l hc => ?_) (fun ch hc => ?_) (fun ch j hj hc => ?_)
  · exact absurd (by simpa using hc) (hdoze ch l)
  · exact .inl (hwaits ch (by simpa using hc))
  · rw [ho] at hj
    cases hj
    exact absurd hc (hn ch)

section Step

variable {held : Λ → Prop} {I : σ → Prop} {B : ι → Λ → σ → Prop}

theorem paid_access (h : Paid wait owed s) (hk : Kept held I A B s) (hp : s.pos i = .run l) (hl : held l)
    {f : ι → Bool → σ → σ × Λ} (hP : PaysAct A wait owed quiet l (.access f))
    (hc : ∀ ch, quiet l (s.killed i) s.data ch → ∀ j, ¬ (s.pos j).waitsOn ch) :
    Paid wait owed (s.exec i l (.access f)) := by
  have hf := hk.fact i
  have ho : s.lock = some i := (hk.lock i).1 (by rw [hp]; exact hl)
  rw [hp] at hf
  have hpay := hP i (s.killed i) s.data (hf.1 hl)
  have hself : (s.exec i l (.access f)).pos i = .run (f i (s.killed i) s.data).2 := move_self i _
  constructor
  · intro j ch m hj
    by_cases e : j = i
    · rw [e, hself] at hj; cases hj
    · -- a dozing process has the lock
      rw [St.exec, move_of_ne _ e] at hj
      have hj' := (hk.lock j).1 (by rw [hj]; trivial)
      rw [ho] at hj'
      exact absurd (Option.some.inj hj').symm e
  · intro j ch hj
    by_cases e : j = i
    · rw [e, hself] at hj; exact absurd hj id
    rw [St.exec, move_of_ne _ e] at hj
    by_cases hd : owed (f i (s.killed i) s.data).2 ch
    · exact .inr ⟨i, ho, by rw [hself]; exact hd⟩
    rcases hpay ch hd with hq | ⟨hn, hw⟩
    · exact absurd hj (hc ch hq j)
    rcases h.waiting j ch hj with hwait | ⟨o, ho', hc'⟩
    · exact .inl (hw hwait)
    · rw [ho] at ho'
      cases ho'
      rw [hp] at hc'
      exact absurd hc' hn

theorem paid_exec (hK : Keeps held I A B M) (hP : Pays A wait owed quiet M) (h : Paid wait owed s) (hk : Kept held I A B s)
    (hp : s.pos i = .run l)
    (hc : ∀ f, M.act l = .access f → ∀ ch, quiet l (s.killed i) s.data ch → ∀ j, ¬ (s.pos j).waitsOn ch) :
    Paid wait owed (s.exec i l (M.act l)) := by
  have hact := hK.act l
  have hpay := hP.act l
  have hf := hk.fact i
  have hh := hk.lock i
  rw [hp] at hf hh
  cases ha : M.act l with
  | call enter => exact h
  | acquire next =>
    simp only [St.exec]
    split_ifs with hfree
    · exact paid_take h i hfree
    · exact h
  | release next =>
    rw [ha] at hact hpay
    exact paid_give h i (hh.1 hact.1) (by rw [hp]; exact hpay) (by simp) (by simp [Pos.waitsOn])
  | access f =>
    rw [ha] at hact hpay
    exact paid_access h hk hp hact.1 hpay (hc f ha)
  | sleep ch next =>
    rw [ha] at hact hpay
    simp only [St.exec]
    split_ifs
    · refine paid_stay h i (fun j e => move_of_ne _ e) rfl rfl (fun c m hm => ?_) (fun c hw => ?_) (fun c hw => ?_)
      · simp only [move_self, Pos.dozing.injEq] at hm
        rw [← hm.1]
        exact hpay.1 i _ (hf.1 hact.1)
      · simp [Pos.waitsOn] at hw
      · rw [hp] at hw; exact absurd hw (hpay.2 c)
    · exact h
  | wakeup ch next =>
    simp only [St.exec]
    split_ifs
    · refine paid_stay h i (fun j e => move_of_ne _ e) rfl rfl (by simp) (by simp [Pos.waitsOn]) (fun c hw => ?_)
      simp only [move_self]
      rwa [hp] at hw
    · exact h

/-- wakeup1: with the table's lock held, everybody who waits on the channel is SLEEPING, and is woken -/
theorem paid_wakes [DecidableEq Ch] (h : Paid wait owed s) (ht : TableOk s) {l next : Λ}
    (hp : s.pos i = .waking l) (hpay : ∀ c, owed l c → c = ch ∨ owed next c) : Paid wait owed (s.wakes i ch next) := by
  have hti : s.ptable = some i := ht i (by rw [hp]; trivial)
  have hself : (s.wakes i ch next).pos i = .waked next := by simp [St.wakes]
  have hoff {j : ι} (e : j ≠ i) : (s.wakes i ch next).pos j = (s.pos j).wakeOn ch := by simp [St.wakes, e]
  constructor
  · intro j c m hj
    by_cases e : j = i
    · rw [e, hself] at hj; cases hj
    · rw [hoff e] at hj
      exact h.dozing j c m (dozing_wakeOn hj)
  · intro j c hj
    by_cases e : j = i
    · rw [e, hself] at hj; exact absurd hj id
    rw [hoff e] at hj
    obtain ⟨hw, htab⟩ := waitsOn_wakeOn hj
    have hne : c ≠ ch := by
      intro ec
      have := ht j (htab ec)
      rw [hti] at this
      exact e (Option.some.inj this).symm
    rcases h.waiting j c hw with hwait | ⟨o, ho, hc⟩
    · exact .inl hwait
    refine .inr ⟨o, ho, ?_⟩
    by_cases eo : o = i
    · rw [eo, hp] at hc
      rw [eo, hself]
      exact (hpay c hc).resolve_left hne
    · rw [hoff eo]
      exact owes_wakeOn.2 hc

theorem paid_go [DecidableEq Ch] (hK : Keeps held I A B M) (hP : Pays A wait owed quiet M) (h : Paid wait owed s)
    (hk : Kept held I A B s) (ht : TableOk s) (i : ι) (hc : Calm quiet M s (.go i)) : Paid wait owed (s.go M i) := by
  have hh := hk.lock i
  unfold St.go
  cases hp : s.pos i with
  | run l => exact paid_exec hK hP h hk hp (fun f ha => hc l f hp ha)
  | dozing ch l =>
    rw [hp] at hh
    refine paid_give h i (hh.1 trivial) (by simp [hp, Pos.owes]) (by simp) (fun c hw => ?_)
    rw [← show ch = c from hw]
    exact h.dozing i ch l hp
  | nodding ch l =>
    refine paid_stay h i (fun j e => move_of_ne _ e) rfl rfl (by simp) (fun c hw => ?_) (by simp [hp, Pos.owes])
    simpa [hp, Pos.waitsOn] using hw
  | asleep ch l =>
    simp only
    split_ifs
    · exact ⟨h.dozing, h.waiting⟩
    · exact h
  | woken l =>
    simp only
    split_ifs
    · exact paid_stay h i (fun j e => move_of_ne _ e) rfl rfl (by simp) (by simp [Pos.waitsOn]) (by simp [hp, Pos.owes])
    · exact h
  | rising l =>
    exact paid_stay h i (fun j e => move_of_ne _ e) rfl rfl (by simp) (by simp [Pos.waitsOn]) (by simp [hp, Pos.owes])
  | back l =>
    simp only
    split_ifs with hfree
    · exact paid_take h i hfree
    · exact h
  | waking l =>
    have hpay := hP.act l
    simp only
    cases ha : M.act l with
    | wakeup ch next =>
      rw [ha] at hpay
      exact paid_wakes h ht hp hpay
    | _ => exact h
  | waked l =>
    refine paid_stay h i (fun j e => move_of_ne _ e) rfl rfl (by simp) (by simp [Pos.waitsOn]) (fun c hw => ?_)
    rw [hp] at hw
    simp only [move_self]
    exact hw

/-- **No wakeup is lost in a Calm step.** -/
theorem paid_step [DecidableEq Ch] (hK : Keeps held I A B M) (hP : Pays A wait owed quiet M) (h : Paid wait owed s)
    (hk : Kept held I A B s) (ht : TableOk s) {op : Op ι Λ E} (hc : Calm quiet M s op) : Paid wait owed (step M s op) := by
  cases op with
  | call i l =>
    rcases begin_cases (M := M) (s := s) i l with e | ⟨m, enter, d, hp, ha, he, e⟩
    · rw [step, e]; exact h
    · have hpay := hP.act m
      have hm := hK.act m
      rw [ha] at hpay hm
      have hne : s.lock ≠ some i := fun ho => hm.1 (by simpa [hp, Pos.holds] using (hk.lock i).2 ho)
      rw [step, e]
      -- first the move, then the data
      have hmove : Paid wait owed (s.move i (.run l)) := by
        refine paid_move h i (fun j e => move_of_ne _ e) rfl (by simp) (by simp [Pos.waitsOn]) (fun c j ho hw => ⟨ho, ?_⟩)
        have ej : j ≠ i := fun e => hne (by rw [← e]; exact ho)
        rwa [move_of_ne _ ej]
      refine ⟨fun j c m' hj => hpay i l _ d he c (hmove.dozing j c m' hj), fun j c hj => ?_⟩
      exact (hmove.waiting j c hj).imp_left (hpay i l _ d he c)
  | go i => exact paid_go hK hP h hk ht i hc
  | kill i =>
    simp only [step]
    split_ifs
    · refine paid_stay h i (fun j e => move_of_ne _ e) rfl rfl (fun c l hw => ?_) (fun c hw => ?_) (fun c hw => ?_)
      · refine h.dozing i c l ?_
        simp only [move_self] at hw
        cases hq : s.pos i <;> simp only [hq, Pos.wake, reduceCtorEq] at hw ⊢
        exact hw
      · exact waitsOn_wake (by simpa using hw)
      · simp only [move_self]
        exact owes_wake.2 hw
    · exact h
  | env e =>
    exact ⟨fun j c l hj => hP.env e _ c (h.dozing j c l hj), fun j c hj => (h.waiting j c hj).imp_left (hP.env e _ c)⟩

/-- the invariant of a run: the table's lock, the assertions and the debts -/
structure Sound (wait : Ch → σ → Prop) (owed : Λ → Ch → Prop) (held : Λ → Prop) (I : σ → Prop) (A B : ι → Λ → σ → Prop)
    (s : St ι σ Λ Ch) : Prop where
  table : TableOk s
  kept : Kept held I A B s
  paid : Paid wait owed s

theorem sound_step [DecidableEq Ch] (hK : Keeps held I A B M) (hP : Pays A wait owed quiet M)
    (h : Sound wait owed held I A B s) {op : Op ι Λ E} (hc : Calm quiet M s op) :
    Sound wait owed held I A B (step M s op) :=
  ⟨table_step h.table op, kept_step hK h.kept op, paid_step hK hP h.paid h.kept h.table hc⟩

/-- **No wakeup is lost in a run of Calm steps.** -/
theorem sound_along [DecidableEq Ch] (hK : Keeps held I A B M) (hP : Pays A wait owed quiet M)
    (h : Sound wait owed held I A B s) {ops : List (Op ι Λ E)} (ha : Along (step M) (Calm quiet M) s ops) :
    Sound wait owed held I A B (run M s ops) :=
  along_inv (fun _ _ hc h => sound_step hK hP h hc) ha h

omit held I B in
/-- a process that waits goes on to be SLEEPING -/
theorem go_waits [DecidableEq Ch] {j : ι} (h : (s.pos j).waitsOn ch) :
    (∃ l, (s.go M j).pos j = .asleep ch l) ∧ (s.go M j).lock = s.lock ∧ (s.go M j).data = s.data := by
  unfold St.go
  cases hp : s.pos j with
  | nodding c l =>
    rw [hp] at h
    cases h
    exact ⟨⟨l, move_self j _⟩, rfl, rfl⟩
  | asleep c l =>
    rw [hp] at h
    cases h
    simp only
    split_ifs
    · exact ⟨⟨l, hp⟩, rfl, rfl⟩
    · exact ⟨⟨l, hp⟩, rfl, rfl⟩
  | _ => rw [hp] at h; exact absurd h id

omit [DecidableEq ι] in
/-- with nothing quiet, every step is Calm -/
theorem calm_of_never (op : Op ι Λ E) (s : St ι σ Λ Ch) : Calm (fun _ _ _ _ => False) M s op := by
  cases op with
  | go i => exact fun _ _ _ _ _ h => absurd h id
  | _ => trivial

omit [DecidableEq ι] in
/-- while the lock is free, what the process waits for has not come -/
theorem wait_of_free (h : Sound wait owed held I A B s) (hn : s.lock = none) {j : ι}
    (hj : (s.pos j).waitsOn ch) : wait ch s.data := by
  rcases h.paid.waiting j ch hj with hw | ⟨o, ho, -⟩
  · exact hw
  · rw [hn] at ho; cases ho

omit [DecidableEq ι] in
theorem wait_of_asleep (h : Sound wait owed held I A B s) (hn : s.lock = none) {j : ι}
    (hj : s.pos j = .asleep ch l) : wait ch s.data :=
  wait_of_free h hn (j := j) (by rw [hj]; rfl)

omit [DecidableEq ι] in
theorem sound_start {d : σ} (hI : I d) (hl : ¬ held l) (hB : ∀ i, B i l d) :
    Sound wait owed held I A B (start d l : St ι σ Λ Ch) :=
  ⟨fun _ hi => absurd hi id, kept_start hI hl hB, fun _ _ _ hi => by simp [start] at hi, fun _ _ hi => absurd hi id⟩

end Step

end Pays

end Xv6.Monitor
