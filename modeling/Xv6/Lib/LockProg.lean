/-
Programs that run on several CPUs and take spinlocks. The locks `L`, the CPUs `C` and the shared data `σ` are arbitrary.

`Prog` is the tree of a program's next operations: take a lock, give one back, read the world, write the data, panic.
It has two meanings:
- `run c p w`: CPU c runs p from the world w with no other CPU in between. The outcome is a result, a panic (taking a
  lock the CPU holds, giving back one it does not hold, or an explicit panic), or an endless spin on a lock that
  another CPU holds;
- `advance c`: one operation at a time, for interleavings (`Interleave`).

Results:
- `run_bind`, `run_forEach`: a sequence runs its parts one after the other; a loop whose body only rewrites the data is
  the fold of the body's effect;
- `run_withLock`: a block under a lock that is free on entry leaves the lock free;
- `run_forEach_panic`: a loop panics when one pass of its body does and the others change nothing;
- `blocks_acquire`, `blocks_bind`: a program that has to take a lock first leaves it held while somebody holds it;
  `needs_acquire`: and does not return;
- `keeps_bind` and one rule for each operation: a program changes the data only as a relation allows, however it ends.
-/
import Mathlib.Tactic

namespace Xv6.LockProg

open Function

/-- the holder of each lock, and the shared data -/
structure World (L C σ : Type) where
  locks : L → Option C
  st : σ

inductive Prog (L C σ α : Type) where
  | ret (a : α)
  | acquire (l : L) (k : Prog L C σ α)
  | release (l : L) (k : Prog L C σ α)
  | get (k : C → World L C σ → Prog L C σ α)
  | set (f : C → σ → σ) (k : Prog L C σ α)
  | panic (msg : String)

inductive Outcome (L C σ α : Type) where
  | ok (a : α) (w : World L C σ)
  | panic (msg : String) (w : World L C σ)
  | spin (l : L) (w : World L C σ)

variable {L C σ α β ι : Type}

/-! ## Sequencing -/

namespace Prog

def bind : Prog L C σ α → (α → Prog L C σ β) → Prog L C σ β
  | .ret a, f => f a
  | .acquire l k, f => .acquire l (k.bind f)
  | .release l k, f => .release l (k.bind f)
  | .get k, f => .get fun c w => (k c w).bind f
  | .set g k, f => .set g (k.bind f)
  | .panic m, _ => .panic m

instance : Monad (Prog L C σ) where
  pure := .ret
  bind := Prog.bind

@[simp] theorem pure_eq (a : α) : (pure a : Prog L C σ α) = .ret a := rfl

@[simp] theorem bind_eq (p : Prog L C σ α) (f : α → Prog L C σ β) : (p >>= f) = p.bind f := rfl

end Prog

/-- take lock l -/
def acquire (l : L) : Prog L C σ Unit := .acquire l (.ret ())

/-- give lock l back -/
def release (l : L) : Prog L C σ Unit := .release l (.ret ())

/-- a value computed from the running CPU and the world -/
def reads (f : C → World L C σ → α) : Prog L C σ α := .get fun c w => .ret (f c w)

/-- rewrite the data -/
def writes (f : C → σ → σ) : Prog L C σ Unit := .set f (.ret ())

/-- run the body once for each element, in order -/
def forEach : List ι → (ι → Prog L C σ Unit) → Prog L C σ Unit
  | [], _ => pure ()
  | i :: is, f => do f i; forEach is f

/-- run the body under lock l -/
def withLock (l : L) (p : Prog L C σ α) : Prog L C σ α := do
  acquire l
  let a ← p
  release l
  return a

/-! ## Uninterrupted runs -/

/-- continue a run that returned -/
def Outcome.andThen : Outcome L C σ α → (α → World L C σ → Outcome L C σ β) → Outcome L C σ β
  | .ok a w, f => f a w
  | .panic m w, _ => .panic m w
  | .spin l w, _ => .spin l w

@[simp] theorem andThen_ok (a : α) (w : World L C σ) (f : α → World L C σ → Outcome L C σ β) :
    (Outcome.ok a w).andThen f = f a w := rfl

@[simp] theorem andThen_panic (m : String) (w : World L C σ) (f : α → World L C σ → Outcome L C σ β) :
    (Outcome.panic m w).andThen f = .panic m w := rfl

@[simp] theorem andThen_spin (l : L) (w : World L C σ) (f : α → World L C σ → Outcome L C σ β) :
    (Outcome.spin l w).andThen f = .spin l w := rfl

variable [DecidableEq L] [DecidableEq C]

def Prog.run (c : C) : Prog L C σ α → World L C σ → Outcome L C σ α
  | .ret a, w => .ok a w
  | .acquire l k, w =>
    match w.locks l with
    | none => k.run c { w with locks := update w.locks l (some c) }
    | some d => if d = c then .panic "acquire" w else .spin l w
  | .release l k, w =>
    if w.locks l = some c then k.run c { w with locks := update w.locks l none } else .panic "release" w
  | .get k, w => (k c w).run c w
  | .set f k, w => k.run c { w with st := f c w.st }
  | .panic m, w => .panic m w

variable {c : C} {w : World L C σ} {lk : L → Option C} {x : σ} {f : ι → Prog L C σ Unit} {l : L}

section Equations

attribute [local simp] Prog.run Prog.bind

@[simp] theorem run_ret (a : α) : (Prog.ret a : Prog L C σ α).run c w = .ok a w := rfl

@[simp] theorem run_panic (m : String) : (Prog.panic m : Prog L C σ α).run c w = .panic m w := rfl

@[simp] theorem run_reads (f : C → World L C σ → α) : (reads f).run c w = .ok (f c w) w := rfl

@[simp] theorem run_writes (f : C → σ → σ) : (writes f : Prog L C σ Unit).run c w = .ok () { w with st := f c w.st } :=
  rfl

@[simp] theorem run_bind (p : Prog L C σ α) (f : α → Prog L C σ β) :
    (p.bind f).run c w = (p.run c w).andThen fun a w' => (f a).run c w' := by
  induction p generalizing w with
  | ret a => rfl
  | acquire l k ih =>
    simp only [Prog.bind, Prog.run]
    split
    · exact ih
    · split_ifs <;> rfl
  | release l k ih =>
    simp only [Prog.bind, Prog.run]
    split_ifs
    · exact ih
    · rfl
  | get k ih => exact ih c w
  | set g k ih => exact ih
  | panic m => rfl

theorem run_acquire_free (h : lk l = none) :
    (acquire l : Prog L C σ Unit).run c ⟨lk, x⟩ = .ok () ⟨update lk l (some c), x⟩ := by
  simp [acquire, h]

theorem run_acquire_held (h : lk l = some c) :
    (acquire l : Prog L C σ Unit).run c ⟨lk, x⟩ = .panic "acquire" ⟨lk, x⟩ := by
  simp [acquire, h]

theorem run_acquire_other {d : C} (h : lk l = some d) (hd : d ≠ c) :
    (acquire l : Prog L C σ Unit).run c ⟨lk, x⟩ = .spin l ⟨lk, x⟩ := by
  simp [acquire, h, hd]

theorem run_release_held (h : lk l = some c) :
    (release l : Prog L C σ Unit).run c ⟨lk, x⟩ = .ok () ⟨update lk l none, x⟩ := by
  simp [release, h]

end Equations

omit [DecidableEq C] in
/-- giving back a lock that was free before it was taken restores the lock state -/
theorem update_update_none (h : lk l = none) (v : Option C) :
    update (update lk l v) l none = lk := by
  rw [update_idem, ← h, update_eq_self]

/-- **A block under a free lock.** If the body, run with the lock taken, returns with the lock state it found, the
whole block returns with the lock state it found. -/
theorem run_withLock {p : Prog L C σ α} {a : α} {y : σ} (h : lk l = none)
    (hp : p.run c ⟨update lk l (some c), x⟩ = .ok a ⟨update lk l (some c), y⟩) :
    (withLock l p).run c ⟨lk, x⟩ = .ok a ⟨lk, y⟩ := by
  simp only [withLock, Prog.bind_eq, run_bind, run_acquire_free h, andThen_ok, hp,
    run_release_held (update_self ..), update_update_none h, Prog.pure_eq, run_ret]

/-- **A loop is a fold.** If every pass of the body keeps the lock state and acts on the data as `g`, so does the loop. -/
theorem run_forEach {g : ι → σ → σ}
    (hf : ∀ i y, (f i).run c ⟨lk, y⟩ = .ok () ⟨lk, g i y⟩) (is : List ι) :
    (forEach is f).run c ⟨lk, x⟩ = .ok () ⟨lk, is.foldl (fun y i => g i y) x⟩ := by
  induction is generalizing x with
  | nil => rfl
  | cons i is ih => simp only [forEach, Prog.bind_eq, run_bind, hf, andThen_ok, ih, List.foldl_cons]

/-- a loop whose body does nothing on each element -/
theorem run_forEach_skip {is : List ι} (hf : ∀ i ∈ is, (f i).run c w = .ok () w) :
    (forEach is f).run c w = .ok () w := by
  induction is with
  | nil => rfl
  | cons i is ih =>
    simp only [forEach, Prog.bind_eq, run_bind, hf i List.mem_cons_self, andThen_ok]
    exact ih fun j hj => hf j (List.mem_cons_of_mem i hj)

/-- a loop whose body panics on some element and does nothing on the others panics -/
theorem run_forEach_panic {m : String} {q : World L C σ → Prop} {is : List ι}
    (hf : ∀ i ∈ is, (f i).run c w = .ok () w ∨ ∃ w', (f i).run c w = .panic m w' ∧ q w')
    (hi : ∃ i ∈ is, (f i).run c w ≠ .ok () w) : ∃ w', (forEach is f).run c w = .panic m w' ∧ q w' := by
  induction is with
  | nil => simp at hi
  | cons i is ih =>
    simp only [forEach, Prog.bind_eq, run_bind]
    rcases hf i List.mem_cons_self with h | ⟨w', h, hq⟩
    · rw [h, andThen_ok]
      refine ih (fun j hj => hf j (List.mem_cons_of_mem i hj)) ?_
      obtain ⟨j, hj, hne⟩ := hi
      rcases List.mem_cons.1 hj with rfl | hj
      · exact absurd h hne
      · exact ⟨j, hj, hne⟩
    · exact ⟨w', by rw [h, andThen_panic], hq⟩

/-! ## Programs that cannot get past a held lock -/

/-- where a run stands at its end -/
def Outcome.world : Outcome L C σ α → World L C σ
  | .ok _ w | .panic _ w | .spin _ w => w

/-- p gives back l only after it has taken it: while somebody holds l, p leaves it held -/
def Blocks (l : L) (p : Prog L C σ α) : Prop := ∀ c w, w.locks l ≠ none → (p.run c w).world.locks l ≠ none

section Blocks

variable {l l' : L} {k : Prog L C σ α} {p : Prog L C σ α} {f : α → Prog L C σ β}

theorem blocks_ret (a : α) : Blocks l (.ret a : Prog L C σ α) := fun _ _ h => h

theorem blocks_panic (m : String) : Blocks l (.panic m : Prog L C σ α) := fun _ _ h => h

theorem blocks_get {g : C → World L C σ → Prog L C σ α} (h : ∀ c w, Blocks l (g c w)) : Blocks l (.get g) :=
  fun c w hw => h c w c w hw

theorem blocks_set {g : C → σ → σ} (h : Blocks l k) : Blocks l (.set g k) :=
  fun c w hw => h c { w with st := g c w.st } hw

/-- a program that starts by taking l -/
theorem blocks_acquire (k : Prog L C σ α) : Blocks l (.acquire l k) := by
  intro c w hw
  cases hl : w.locks l with
  | none => exact absurd hl hw
  | some d =>
    simp only [Prog.run, hl]
    split_ifs <;> exact hw

theorem blocks_acquire_other (hne : l ≠ l') (h : Blocks l k) : Blocks l (.acquire l' k) := by
  intro c w hw
  simp only [Prog.run]
  split
  · exact h c _ (by simpa [update_of_ne hne] using hw)
  · split_ifs <;> exact hw

theorem blocks_release_other (hne : l ≠ l') (h : Blocks l k) : Blocks l (.release l' k) := by
  intro c w hw
  simp only [Prog.run]
  split_ifs
  · exact h c _ (by simpa [update_of_ne hne] using hw)
  · exact hw

theorem blocks_bind (hp : Blocks l p) (hf : ∀ a, Blocks l (f a)) : Blocks l (p.bind f) := by
  intro c w hw
  have h := hp c w hw
  rw [run_bind]
  cases hr : p.run c w with
  | ok a w' => rw [hr] at h; exact hf a c w' h
  | panic m w' | spin m w' => rw [hr] at h; exact h

/-- p does not return while somebody holds l -/
def Needs (l : L) (p : Prog L C σ α) : Prop := ∀ c w a w', w.locks l ≠ none → p.run c w ≠ .ok a w'

theorem needs_acquire (k : Prog L C σ α) : Needs l (.acquire l k) := by
  intro c w a w' hw
  cases hl : w.locks l with
  | none => exact absurd hl hw
  | some d =>
    simp only [Prog.run, hl]
    split_ifs <;> simp

theorem needs_bind (hp : Needs l p) : Needs l (p.bind f) := by
  intro c w a w' hw
  rw [run_bind]
  cases hr : p.run c w with
  | ok b w₁ => exact absurd hr (hp c w b w₁ hw)
  | panic m w₁ | spin m w₁ => simp

end Blocks

/-! ## What a program can do to the data -/

/-- however the run ends, it has changed the data as R allows -/
def Keeps (R : σ → σ → Prop) (p : Prog L C σ α) : Prop := ∀ c w, R w.st (p.run c w).world.st

section Keeps

variable {R : σ → σ → Prop} [IsPreorder σ R] {l : L} {k p : Prog L C σ α} {f : α → Prog L C σ β}

theorem keeps_ret (a : α) : Keeps R (.ret a : Prog L C σ α) := fun _ w => refl_of R w.st

theorem keeps_panic (m : String) : Keeps R (.panic m : Prog L C σ α) := fun _ w => refl_of R w.st

theorem keeps_reads (g : C → World L C σ → α) : Keeps R (reads g) := fun _ w => refl_of R w.st

omit [IsPreorder σ R] in
theorem keeps_writes {g : C → σ → σ} (h : ∀ c x, R x (g c x)) : Keeps R (writes g : Prog L C σ Unit) := fun c w => h c w.st

theorem keeps_acquire (l : L) : Keeps R (acquire l : Prog L C σ Unit) := by
  intro c w
  simp only [acquire, Prog.run]
  split
  · exact refl_of R w.st
  · split_ifs <;> exact refl_of R w.st

theorem keeps_release (l : L) : Keeps R (release l : Prog L C σ Unit) := by
  intro c w
  simp only [release, Prog.run]
  split_ifs <;> exact refl_of R w.st

omit [DecidableEq L] [DecidableEq C] in
/-- a run goes on -/
theorem keeps_andThen {o : Outcome L C σ α} {g : α → World L C σ → Outcome L C σ β} (h : R x o.world.st)
    (hg : ∀ a w, R w.st (g a w).world.st) : R x (o.andThen g).world.st := by
  cases o with
  | ok a w => exact trans_of R h (hg a w)
  | panic m w | spin m w => exact h

theorem keeps_bind (hp : Keeps R p) (hf : ∀ a, Keeps R (f a)) : Keeps R (p.bind f) := by
  intro c w
  rw [run_bind]
  exact keeps_andThen (hp c w) fun a w' => hf a c w'

omit [IsPreorder σ R] in
theorem keeps_ite {a : Prop} [Decidable a] (hp : Keeps R p) (hk : Keeps R k) : Keeps R (if a then p else k) := by
  split_ifs
  · exact hp
  · exact hk

theorem keeps_withLock (hp : Keeps R p) : Keeps R (withLock l p) :=
  keeps_bind (keeps_acquire l) fun _ => keeps_bind hp fun a => keeps_bind (keeps_release l) fun _ => keeps_ret a

theorem keeps_forEach {g : ι → Prog L C σ Unit} (is : List ι) (h : ∀ i, Keeps R (g i)) : Keeps R (forEach is g) := by
  induction is with
  | nil => exact keeps_ret ()
  | cons i is ih => exact keeps_bind (h i) fun _ => ih

/-- two writes at once, where the first alone is not allowed -/
theorem keeps_set_set {g h : C → σ → σ} (hgh : ∀ c x, R x (h c (g c x))) (hk : Keeps R k) : Keeps R (.set g (.set h k)) := by
  intro c w
  exact trans_of R (hgh c w.st) (hk c { w with st := h c (g c w.st) })

end Keeps

/-! ## Single operations -/

/-- one operation of CPU c: a program at a taken lock waits, at a lock of its own CPU it panics -/
def advance (c : C) : Prog L C σ α → World L C σ → Prog L C σ α × World L C σ
  | .ret a, w => (.ret a, w)
  | .acquire l k, w =>
    match w.locks l with
    | none => (k, { w with locks := update w.locks l (some c) })
    | some d => if d = c then (.panic "acquire", w) else (.acquire l k, w)
  | .release l k, w =>
    if w.locks l = some c then (k, { w with locks := update w.locks l none }) else (.panic "release", w)
  | .get k, w => (k c w, w)
  | .set f k, w => (k, { w with st := f c w.st })
  | .panic m, w => (.panic m, w)

end Xv6.LockProg
