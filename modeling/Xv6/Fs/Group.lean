/-
Group commit (begin_op, log_write, end_op in log.c): any number of processes, one critical section on log.lock at a time.

- `Phase`: where a process is. Between begin_op and end_op it is in an operation, with the blocks it has logged so far.
- log_write tests for a full log before it takes the lock (`logWrite`) and appends with the lock held (`logAppend`); other
  processes can log in between.
- commit runs without the lock. Its stages are steps of their own: write_log, write_head, install_trans, `lh.n = 0`, write_head;
  then the last critical section of end_op.
- A process that waits in begin_op sleeps on the log. It is woken by end_op, or by kill (`wake`).
- `ended`: the blocks of each operation that has ended and whose commit is not over.

Results:
- `step_group`, `group_run`: the invariant of the protocol;
- `group_commit`: a commit holds the blocks of the operations that have ended and nothing else.
-/
import Mathlib.Data.Finset.Card
import Mathlib.Algebra.BigOperators.Group.Finset.Basic
import Mathlib.Algebra.Order.BigOperators.Group.Finset
import Xv6.Lib.Runs
import Xv6.Fs.Layout

namespace Xv6.Fs

open Runs Function

/-! ## The protocol -/

/-- what commit does next -/
inductive Stage where
  | test
  | writeLog
  | writeHead
  | installTrans
  | clear
  | eraseHead
  | finish
deriving DecidableEq, Repr

inductive Phase where
  | idle
  /-- in begin_op, about to take log.lock -/
  | beginning
  /-- SLEEPING in begin_op -/
  | asleep
  | inOp (blocks : List ℕ)
  /-- in log_write, past its tests -/
  | logging (blocks : List ℕ) (b : ℕ)
  | committing (st : Stage)
  /-- blocks: those of the operation that it will not end -/
  | panicked (msg : String) (blocks : Option (List ℕ))
deriving DecidableEq, Repr

/-- the blocks that the operation in progress has logged -/
def Phase.blocks : Phase → Option (List ℕ)
  | .inOp bs | .logging bs _ => some bs
  | .panicked _ o => o
  | _ => none

@[simp] theorem blocks_idle : Phase.blocks .idle = none := rfl
@[simp] theorem blocks_inOp (bs : List ℕ) : (Phase.inOp bs).blocks = some bs := rfl
@[simp] theorem blocks_committing (st : Stage) : (Phase.committing st).blocks = none := rfl

structure LogSys where
  /-- the number of blocks of the log area -/
  size : Int
  outstanding : Int
  committing : Bool
  lh : List ℕ
  phase : ℕ → Phase
  ended : List (List ℕ)

def LogSys.boot (size : Int) : LogSys := ⟨size, 0, false, [], fun _ => .idle, []⟩

inductive LogOp where
  | beginOp (p : ℕ)
  | wake (p : ℕ)
  | logWrite (p b : ℕ)
  | logAppend (p : ℕ)
  | endOp (p : ℕ)
  | commit (p : ℕ)
deriving DecidableEq, Repr

def LogSys.setPhase (s : LogSys) (p : ℕ) (ph : Phase) : LogSys := { s with phase := update s.phase p ph }

/-- `wakeup(&log)` -/
def LogSys.wakeup (s : LogSys) : LogSys :=
  { s with phase := fun p => if s.phase p = .asleep then .beginning else s.phase p }

/-- one turn of begin_op's loop, with the lock held -/
def LogSys.beginOp (s : LogSys) (p : ℕ) : LogSys :=
  if s.committing then s.setPhase p .asleep
  else if s.lh.length + (s.outstanding + 1) * MAXOPBLOCKS > LOGSIZE then s.setPhase p .asleep
  else { s with outstanding := s.outstanding + 1 }.setPhase p (.inOp [])

/-- log_write's tests -/
def LogSys.logWrite (s : LogSys) (p : ℕ) (blocks : List ℕ) (b : ℕ) : LogSys :=
  if LOGSIZE ≤ s.lh.length ∨ s.size - 1 ≤ s.lh.length then s.setPhase p (.panicked "too big a transaction" blocks)
  else if s.outstanding < 1 then s.setPhase p (.panicked "log_write outside of trans" blocks)
  else s.setPhase p (.logging blocks b)

/-- log_write with the lock held: a block that is logged already is absorbed -/
def LogSys.logAppend (s : LogSys) (p : ℕ) (blocks : List ℕ) (b : ℕ) : LogSys :=
  { s with lh := if b ∈ s.lh then s.lh else s.lh ++ [b] }.setPhase p (.inOp (b :: blocks))

/-- end_op's first critical section -/
def LogSys.endOp (s : LogSys) (p : ℕ) (blocks : List ℕ) : LogSys :=
  let s := { s with outstanding := s.outstanding - 1 }
  if s.committing then s.setPhase p (.panicked "log.committing" none)
  else if s.outstanding = 0 then { s with committing := true, ended := blocks :: s.ended }.setPhase p (.committing .test)
  else { s with ended := blocks :: s.ended }.wakeup.setPhase p .idle

/-- the next stage of commit, and end_op's last critical section -/
def LogSys.commit (s : LogSys) (p : ℕ) : Stage → LogSys
  | .test =>
    if 0 < s.lh.length then s.setPhase p (.committing .writeLog)
    else { s with ended := [] }.setPhase p (.committing .finish)
  | .writeLog => s.setPhase p (.committing .writeHead)
  | .writeHead => s.setPhase p (.committing .installTrans)
  | .installTrans => s.setPhase p (.committing .clear)
  | .clear => { s with lh := [], ended := [] }.setPhase p (.committing .eraseHead)
  | .eraseHead => s.setPhase p (.committing .finish)
  | .finish => { s with committing := false }.wakeup.setPhase p .idle

/-- one step; an operation that does not fit the process's phase does nothing -/
def logStep (s : LogSys) : LogOp → LogSys
  | .beginOp p =>
    match s.phase p with
    | .idle | .beginning => s.beginOp p
    | _ => s
  | .wake p =>
    match s.phase p with
    | .asleep => s.setPhase p .beginning
    | _ => s
  | .logWrite p b =>
    match s.phase p with
    | .inOp bs => s.logWrite p bs b
    | _ => s
  | .logAppend p =>
    match s.phase p with
    | .logging bs b => s.logAppend p bs b
    | _ => s
  | .endOp p =>
    match s.phase p with
    | .inOp bs => s.endOp p bs
    | _ => s
  | .commit p =>
    match s.phase p with
    | .committing st => s.commit p st
    | _ => s

def logRun (s : LogSys) (ops : List LogOp) : LogSys := ops.foldl logStep s

/-! ## The invariant -/

/-- p is in an operation -/
def LogSys.active (s : LogSys) (p : ℕ) : Prop := (s.phase p).blocks ≠ none

structure LogSys.Ok (s : LogSys) : Prop where
  /-- outstanding counts the processes in an operation -/
  count : ∃ A : Finset ℕ, (∀ p, p ∈ A ↔ s.active p) ∧ s.outstanding = A.card
  quiet : s.committing = true → ∀ p, ¬ s.active p
  committer : ∀ p st, s.phase p = .committing st → s.committing = true
  made : s.committing = true → ∃ p st, s.phase p = .committing st
  only : ∀ p q st st', s.phase p = .committing st → s.phase q = .committing st' → p = q
  empty : s.committing = false → s.outstanding = 0 → s.lh = [] ∧ s.ended = []
  erased : ∀ p st, s.phase p = .committing st → st = .eraseHead ∨ st = .finish → s.lh = [] ∧ s.ended = []
  nodup : s.lh.Nodup
  contents : ∀ b, b ∈ s.lh ↔ (∃ o ∈ s.ended, b ∈ o) ∨ ∃ p bs, (s.phase p).blocks = some bs ∧ b ∈ bs
  waiting : ∀ p, s.phase p = .asleep → 0 < s.outstanding ∨ s.committing = true
  sane : ∀ p o, s.phase p ≠ .panicked "log.committing" o

variable {s s' : LogSys} {p q : ℕ} {ph : Phase} {bs : List ℕ} {b : ℕ} {st : Stage}

/-- the step is p's: of the others, it may wake the sleepers -/
def Others (p : ℕ) (s s' : LogSys) : Prop :=
  ∀ q, q ≠ p → s'.phase q = s.phase q ∨ s.phase q = .asleep ∧ s'.phase q = .beginning

theorem others_setPhase (s : LogSys) (p : ℕ) (ph : Phase) : Others p s (s.setPhase p ph) := by
  intro q hq
  exact .inl (update_of_ne hq ..)

theorem others_wakeup (s : LogSys) (p : ℕ) (ph : Phase) : Others p s (s.wakeup.setPhase p ph) := by
  intro q hq
  have e : (s.wakeup.setPhase p ph).phase q = if s.phase q = .asleep then .beginning else s.phase q :=
    update_of_ne hq ..
  rw [e]
  split_ifs with ha
  · exact .inr ⟨ha, rfl⟩
  · exact .inl rfl

theorem others_blocks (h : Others p s s') (hq : q ≠ p) : (s'.phase q).blocks = (s.phase q).blocks := by
  rcases h q hq with e | ⟨e, e'⟩
  · rw [e]
  · rw [e, e']; rfl

theorem others_committing (h : Others p s s') (hq : q ≠ p) (e : s'.phase q = .committing st) :
    s.phase q = .committing st := by
  rcases h q hq with e' | ⟨-, e'⟩
  · rw [← e', e]
  · rw [e'] at e; cases e

theorem committing_others (h : Others p s s') (hq : q ≠ p) (e : s.phase q = .committing st) :
    s'.phase q = .committing st := by
  rcases h q hq with e' | ⟨e', -⟩
  · rw [e', e]
  · rw [e'] at e; cases e

theorem others_asleep (h : Others p s s') (hq : q ≠ p) (e : s'.phase q = .asleep) : s.phase q = .asleep := by
  rcases h q hq with e' | ⟨-, e'⟩
  · rw [← e', e]
  · rw [e'] at e; cases e

theorem others_panicked (h : Others p s s') (hq : q ≠ p) {m : String} {o : Option (List ℕ)}
    (e : s'.phase q = .panicked m o) : s.phase q = .panicked m o := by
  rcases h q hq with e' | ⟨-, e'⟩
  · rw [← e', e]
  · rw [e'] at e; cases e

/-- a set of the active processes after a step of p -/
theorem count_others {A : Finset ℕ} (h : Others p s s') (hA : ∀ q, q ∈ A ↔ s.active q) {B : Finset ℕ}
    (hB : ∀ q, q ≠ p → (q ∈ B ↔ q ∈ A)) (hp : p ∈ B ↔ s'.active p) (q : ℕ) : q ∈ B ↔ s'.active q := by
  by_cases hq : q = p
  · rw [hq]; exact hp
  · rw [hB q hq, hA q, LogSys.active, LogSys.active, others_blocks h hq]

/-! ## One step -/

@[simp] theorem setPhase_self : (s.setPhase p ph).phase p = ph := update_self ..

/-- p moves on and nothing else changes -/
theorem ok_setPhase (h : s.Ok) (hb : ph.blocks = (s.phase p).blocks)
    (hc : ∀ st, ph = .committing st → ∃ st', s.phase p = .committing st' ∧
      (st = .eraseHead ∨ st = .finish → st' = .eraseHead ∨ st' = .finish))
    (hm : ∀ st, s.phase p = .committing st → ∃ st', ph = .committing st')
    (hw : ph = .asleep → 0 < s.outstanding ∨ s.committing = true) (hs : ∀ o, ph ≠ .panicked "log.committing" o) :
    (s.setPhase p ph).Ok := by
  have ho := others_setPhase s p ph
  have hblocks : ∀ q, ((s.setPhase p ph).phase q).blocks = (s.phase q).blocks := by
    intro q
    by_cases hq : q = p
    · rw [hq, setPhase_self, hb]
    · exact others_blocks ho hq
  have hcommitting : ∀ q st, (s.setPhase p ph).phase q = .committing st → ∃ st', s.phase q = .committing st' ∧
      (st = .eraseHead ∨ st = .finish → st' = .eraseHead ∨ st' = .finish) := by
    intro q st e
    by_cases hq : q = p
    · rw [hq, setPhase_self] at e
      rw [hq]; exact hc st e
    · exact ⟨st, others_committing ho hq e, id⟩
  have hactive : ∀ q, (s.setPhase p ph).active q ↔ s.active q := fun q => by
    rw [LogSys.active, LogSys.active, hblocks]
  refine ⟨?_, ?_, ?_, ?_, ?_, h.empty, ?_, h.nodup, ?_, ?_, ?_⟩
  · obtain ⟨A, hA, hn⟩ := h.count
    exact ⟨A, fun q => by rw [hA, hactive], hn⟩
  · intro hk q
    rw [hactive]; exact h.quiet hk q
  · intro q st e
    obtain ⟨st', e', -⟩ := hcommitting q st e
    exact h.committer q st' e'
  · intro hk
    obtain ⟨q, st, e⟩ := h.made hk
    by_cases hq : q = p
    · rw [hq] at e
      obtain ⟨st', e'⟩ := hm st e
      exact ⟨p, st', by rw [setPhase_self, e']⟩
    · exact ⟨q, st, committing_others ho hq e⟩
  · intro q r st st' e e'
    obtain ⟨t, ht, -⟩ := hcommitting q st e
    obtain ⟨t', ht', -⟩ := hcommitting r st' e'
    exact h.only q r t t' ht ht'
  · intro q st e hst
    obtain ⟨st', e', hi⟩ := hcommitting q st e
    exact h.erased q st' e' (hi hst)
  · intro b
    simp only [hblocks]
    exact h.contents b
  · intro q e
    by_cases hq : q = p
    · rw [hq, setPhase_self] at e
      exact hw e
    · exact h.waiting q (others_asleep ho hq e)
  · intro q o e
    by_cases hq : q = p
    · rw [hq, setPhase_self] at e
      exact hs o e
    · exact h.sane q o (others_panicked ho hq e)

/-- nobody commits while an operation is in progress -/
theorem LogSys.Ok.not_committing (h : s.Ok) (hp : (s.phase p).blocks = some bs) : s.committing = false := by
  by_contra hk
  exact h.quiet (by simpa using hk) p (by simp [LogSys.active, hp])

theorem LogSys.Ok.no_committer (h : s.Ok) (hk : s.committing = false) (q : ℕ) (st : Stage) : s.phase q ≠ .committing st := by
  intro e
  rw [h.committer q st e] at hk
  cases hk

/-- b is a block of an operation in progress of a process other than p -/
def LogSys.elsewhere (s : LogSys) (p b : ℕ) : Prop := ∃ q bs, q ≠ p ∧ (s.phase q).blocks = some bs ∧ b ∈ bs

theorem contents_others (h : Others p s s') (b : ℕ) : (∃ q bs, (s'.phase q).blocks = some bs ∧ b ∈ bs) ↔
    (∃ bs, (s'.phase p).blocks = some bs ∧ b ∈ bs) ∨ s.elsewhere p b := by
  constructor
  · rintro ⟨q, bs, e, hb⟩
    by_cases hq : q = p
    · rw [hq] at e
      exact .inl ⟨bs, e, hb⟩
    · rw [others_blocks h hq] at e
      exact .inr ⟨q, bs, hq, e, hb⟩
  · rintro (⟨bs, e, hb⟩ | ⟨q, bs, hq, e, hb⟩)
    · exact ⟨p, bs, e, hb⟩
    · exact ⟨q, bs, by rw [others_blocks h hq, e], hb⟩

theorem contents_split (h : s.Ok) (p b : ℕ) :
    b ∈ s.lh ↔ (∃ o ∈ s.ended, b ∈ o) ∨ (∃ bs, (s.phase p).blocks = some bs ∧ b ∈ bs) ∨ s.elsewhere p b := by
  rw [h.contents b, contents_others (fun _ _ => .inl rfl) b]

/-- a step of p while nobody else commits -/
theorem ok_step (h : s.Ok) (ho : Others p s s') (halone : ∀ q st, q ≠ p → s.phase q ≠ .committing st)
    (hcount : ∃ A : Finset ℕ, (∀ q, q ∈ A ↔ s'.active q) ∧ s'.outstanding = A.card)
    (hquiet : s'.committing = true → ∀ q, ¬ s'.active q)
    (hp : ∀ st, s'.phase p = .committing st →
      s'.committing = true ∧ (st = .eraseHead ∨ st = .finish → s'.lh = [] ∧ s'.ended = []))
    (hmade : s'.committing = true → ∃ st, s'.phase p = .committing st)
    (hempty : s'.committing = false → s'.outstanding = 0 → s'.lh = [] ∧ s'.ended = []) (hnodup : s'.lh.Nodup)
    (hcontents : ∀ b, b ∈ s'.lh ↔ (∃ o ∈ s'.ended, b ∈ o) ∨ ∃ q bs, (s'.phase q).blocks = some bs ∧ b ∈ bs)
    (hwaiting : ∀ q, s'.phase q = .asleep → 0 < s'.outstanding ∨ s'.committing = true)
    (hsane : ∀ o, s'.phase p ≠ .panicked "log.committing" o) : s'.Ok := by
  have honly : ∀ q st, s'.phase q = .committing st → q = p := by
    intro q st e
    by_contra hq
    exact halone q st hq (others_committing ho hq e)
  refine ⟨hcount, hquiet, ?_, fun hk => ⟨p, hmade hk⟩, ?_, hempty, ?_, hnodup, hcontents, hwaiting, ?_⟩
  · intro q st e
    have hq := honly q st e
    rw [hq] at e
    exact (hp st e).1
  · intro q r st st' e e'
    rw [honly q st e, honly r st' e']
  · intro q st e hst
    have hq := honly q st e
    rw [hq] at e
    exact (hp st e).2 hst
  · intro q o e
    by_cases hq : q = p
    · rw [hq] at e
      exact hsane o e
    · exact h.sane q o (others_panicked ho hq e)

theorem ok_beginOp (h : s.Ok) (hp : s.phase p = .idle ∨ s.phase p = .beginning) : (s.beginOp p).Ok := by
  have hb : (s.phase p).blocks = none := by rcases hp with e | e <;> rw [e] <;> rfl
  have hc : ∀ st, s.phase p ≠ .committing st := by rcases hp with e | e <;> simp [e]
  obtain ⟨A, hA, hn⟩ := h.count
  rw [LogSys.beginOp]
  split_ifs with hk hfull
  · exact ok_setPhase h hb.symm (by simp) (fun st e => absurd e (hc st)) (fun _ => .inr hk) (by simp)
  · refine ok_setPhase h hb.symm (by simp) (fun st e => absurd e (hc st)) (fun _ => .inl ?_) (by simp)
    -- with no operation in progress the log is empty and has room for one
    by_contra h0
    have h0 : s.outstanding = 0 := by omega
    rw [(h.empty (by simpa using hk) h0).1, h0] at hfull
    revert hfull; decide
  · have hk : s.committing = false := by simpa using hk
    have ho : Others p s ({ s with outstanding := s.outstanding + 1 }.setPhase p (.inOp [])) := others_setPhase _ p _
    have hpA : p ∉ A := by rw [hA]; simp [LogSys.active, hb]
    refine ok_step h ho (fun q st _ => h.no_committer hk q st) ⟨insert p A, ?_, ?_⟩ ?_ (by simp) ?_ ?_ h.nodup ?_ ?_
      (by simp)
    · exact count_others ho hA (fun q hq => by simp [hq]) (by simp [LogSys.active, Phase.blocks])
    · rw [Finset.card_insert_of_notMem hpA]
      show s.outstanding + 1 = _
      rw [hn]; push_cast; rfl
    · intro hk'
      exact absurd (hk.symm.trans hk') (by decide)
    · intro hk'
      exact absurd (hk.symm.trans hk') (by decide)
    · intro _ h0
      have h0 : s.outstanding + 1 = 0 := h0
      omega
    · intro b
      rw [contents_others ho, setPhase_self]
      show b ∈ s.lh ↔ (∃ o ∈ s.ended, b ∈ o) ∨ _
      rw [contents_split h p, hb]
      simp
    · intro q _
      left
      show 0 < s.outstanding + 1
      omega

theorem ok_logWrite (h : s.Ok) (hp : s.phase p = .inOp bs) (b : ℕ) : (s.logWrite p bs b).Ok := by
  have hb : (s.phase p).blocks = some bs := by rw [hp]; rfl
  rw [LogSys.logWrite]
  split_ifs
  all_goals exact ok_setPhase h hb.symm (by simp) (by simp [hp]) (by simp) (by simp)

theorem ok_logAppend (h : s.Ok) (hp : s.phase p = .logging bs b) : (s.logAppend p bs b).Ok := by
  have hb : (s.phase p).blocks = some bs := by rw [hp]; rfl
  have hk := h.not_committing hb
  have ho : Others p s (s.logAppend p bs b) := others_setPhase { s with lh := _ } p _
  have hself : (s.logAppend p bs b).phase p = .inOp (b :: bs) := setPhase_self
  have hlh : ∀ x, x ∈ (s.logAppend p bs b).lh ↔ x ∈ s.lh ∨ x = b := by
    intro x
    show x ∈ (if b ∈ s.lh then s.lh else s.lh ++ [b]) ↔ _
    split_ifs with hin
    · constructor
      · exact .inl
      · rintro (hx | rfl)
        · exact hx
        · exact hin
    · simp
  obtain ⟨A, hA, hn⟩ := h.count
  have hpA : p ∈ A := by rw [hA]; simp [LogSys.active, hb]
  have hpos : 0 < A.card := Finset.card_pos.2 ⟨p, hpA⟩
  refine ok_step h ho (fun q st _ => h.no_committer hk q st) ⟨A, ?_, hn⟩ ?_ (by simp [hself]) ?_ ?_ ?_ ?_ ?_
    (by simp [hself])
  · exact count_others ho hA (fun q _ => Iff.rfl) (by simp [hpA, LogSys.active, hself, Phase.blocks])
  · intro hk'
    exact absurd (hk.symm.trans hk') (by decide)
  · intro hk'
    exact absurd (hk.symm.trans hk') (by decide)
  · intro _ h0
    have h0 : s.outstanding = 0 := h0
    omega
  · show (if b ∈ s.lh then s.lh else s.lh ++ [b]).Nodup
    split_ifs with hin
    · exact h.nodup
    · exact h.nodup.append (by simp) (by simpa using hin)
  · intro x
    rw [hlh, contents_others ho, hself, contents_split h p, hb]
    show _ ↔ (∃ o ∈ s.ended, x ∈ o) ∨ _
    simp only [blocks_inOp, Option.some.injEq, exists_eq_left', List.mem_cons]
    rw [or_assoc, or_assoc, or_assoc, or_left_comm (a := x = b), or_comm (a := x = b)]
  · intro q _
    left
    show 0 < s.outstanding
    omega

theorem wakeup_not_asleep (s : LogSys) (q : ℕ) : s.wakeup.phase q ≠ .asleep := by
  show (if s.phase q = .asleep then Phase.beginning else s.phase q) ≠ .asleep
  split_ifs with e
  · simp
  · exact e

/-- after wakeup(&log) nobody sleeps -/
theorem not_asleep (hph : ph ≠ .asleep) (q : ℕ) : (s.wakeup.setPhase p ph).phase q ≠ .asleep := by
  by_cases hq : q = p
  · rw [hq, setPhase_self]; exact hph
  · intro e
    exact wakeup_not_asleep s q (others_asleep (others_setPhase s.wakeup p ph) hq e)

/-- an operation that ends hands its blocks to the transaction -/
theorem contents_ended (h : s.Ok) (ho : Others p s s') (hb : (s.phase p).blocks = some bs)
    (hs : s'.lh = s.lh ∧ s'.ended = bs :: s.ended ∧ (s'.phase p).blocks = none) (b : ℕ) :
    b ∈ s'.lh ↔ (∃ o ∈ s'.ended, b ∈ o) ∨ ∃ q bs, (s'.phase q).blocks = some bs ∧ b ∈ bs := by
  rw [contents_others ho, hs.1, hs.2.1, hs.2.2, contents_split h p, hb]
  simp only [Option.some.injEq, exists_eq_left', List.mem_cons, exists_eq_or_imp, reduceCtorEq, false_and, exists_false,
    false_or]
  rw [or_left_comm, or_assoc]

theorem contents_nil (hs : s.lh = [] ∧ s.ended = []) (hquiet : ∀ q, ¬ s.active q) (b : ℕ) :
    b ∈ s.lh ↔ (∃ o ∈ s.ended, b ∈ o) ∨ ∃ q bs, (s.phase q).blocks = some bs ∧ b ∈ bs := by
  rw [hs.1, hs.2]
  refine iff_of_false (by simp) ?_
  rintro (⟨o, ho, -⟩ | ⟨q, bs, e, -⟩)
  · cases ho
  · exact hquiet q (by rw [LogSys.active, e]; simp)

theorem ok_endOp (h : s.Ok) (hp : s.phase p = .inOp bs) : (s.endOp p bs).Ok := by
  have hb : (s.phase p).blocks = some bs := by rw [hp]; rfl
  have hk := h.not_committing hb
  obtain ⟨A, hA, hn⟩ := h.count
  have hpA : p ∈ A := by rw [hA]; simp [LogSys.active, hb]
  have hcard : ((A.erase p).card : Int) = A.card - 1 := by
    have := Finset.card_erase_add_one hpA
    omega
  rw [LogSys.endOp, if_neg (by simp [hk])]
  split_ifs with h0
  · have ho : Others p s ({ s with outstanding := s.outstanding - 1, committing := true, ended := bs :: s.ended }.setPhase p
        (.committing .test)) := others_setPhase _ p _
    have hA' : ∀ q, q ∈ A.erase p ↔ _ :=
      count_others ho hA (fun q hq => by simp [hq]) (by simp [LogSys.active, Phase.blocks])
    have h0 : s.outstanding - 1 = 0 := h0
    have hnone : A.erase p = ∅ := Finset.card_eq_zero.1 (by omega)
    refine ok_step h ho (fun q st _ => h.no_committer hk q st) ⟨A.erase p, hA', ?_⟩ ?_ ?_ ?_ ?_ h.nodup ?_ ?_ (by simp)
    · show s.outstanding - 1 = _
      omega
    · intro _ q
      rw [← hA', hnone]
      exact Finset.notMem_empty q
    · intro st e
      rw [setPhase_self, Phase.committing.injEq] at e
      subst e
      exact ⟨rfl, by simp⟩
    · intro _
      exact ⟨.test, setPhase_self⟩
    · intro hf
      cases hf
    · exact contents_ended h ho hb ⟨rfl, rfl, by simp⟩
    · intro q _
      exact .inr rfl
  · have ho : Others p s ({ s with outstanding := s.outstanding - 1, ended := bs :: s.ended }.wakeup.setPhase p .idle) :=
      others_wakeup _ p _
    refine ok_step h ho (fun q st _ => h.no_committer hk q st) ⟨A.erase p, ?_, ?_⟩ ?_ (by simp) ?_ ?_ h.nodup ?_ ?_
      (by simp)
    · exact count_others ho hA (fun q hq => by simp [hq]) (by simp [LogSys.active, Phase.blocks])
    · show s.outstanding - 1 = _
      omega
    · intro hk'
      exact absurd (hk.symm.trans hk') (by decide)
    · intro hk'
      exact absurd (hk.symm.trans hk') (by decide)
    · intro _ h0'
      exact absurd h0' h0
    · exact contents_ended h ho hb ⟨rfl, rfl, by simp⟩
    · intro q e
      exact absurd e (not_asleep (by simp) q)

/-- nothing is logged any more once a commit has emptied the log -/
theorem ok_emptied (h : s.Ok) (hp : s.phase p = .committing st) {t : Stage} :
    ({ s with lh := [], ended := [] }.setPhase p (.committing t)).Ok := by
  have hk := h.committer p st hp
  have ho : Others p s ({ s with lh := [], ended := [] }.setPhase p (.committing t)) := others_setPhase _ p _
  obtain ⟨A, hA, hn⟩ := h.count
  have hA' : ∀ q, q ∈ A ↔ _ := count_others ho hA (fun q _ => Iff.rfl) (by simp [hA, LogSys.active, hp])
  have hquiet : ∀ q, q ∉ A := fun q => by rw [hA]; exact h.quiet hk q
  refine ok_step h ho (fun q st' hq e => hq (h.only q p st' st e hp)) ⟨A, hA', hn⟩ ?_ ?_ ?_ ?_ List.nodup_nil ?_ ?_
    (by simp)
  · intro _ q
    rw [← hA']; exact hquiet q
  · intro _ _
    exact ⟨hk, fun _ => ⟨rfl, rfl⟩⟩
  · intro _
    exact ⟨t, setPhase_self⟩
  · intro _ _
    exact ⟨rfl, rfl⟩
  · exact contents_nil ⟨rfl, rfl⟩ fun q => by rw [← hA']; exact hquiet q
  · intro _ _
    exact .inr hk

theorem ok_finish (h : s.Ok) (hp : s.phase p = .committing .finish) :
    ({ s with committing := false }.wakeup.setPhase p .idle).Ok := by
  have hk := h.committer p _ hp
  have ho : Others p s ({ s with committing := false }.wakeup.setPhase p .idle) := others_wakeup _ p _
  have herased := h.erased p _ hp (.inr rfl)
  obtain ⟨A, hA, hn⟩ := h.count
  have hA' : ∀ q, q ∈ A ↔ _ := count_others ho hA (fun q _ => Iff.rfl) (by simp [hA, LogSys.active, hp])
  have hquiet : ∀ q, q ∉ A := fun q => by rw [hA]; exact h.quiet hk q
  refine ok_step h ho (fun q st' hq e => hq (h.only q p st' _ e hp)) ⟨A, hA', hn⟩ ?_ (by simp) ?_ ?_ h.nodup ?_ ?_
    (by simp)
  · intro hf
    cases hf
  · intro hf
    cases hf
  · intro _ _
    exact herased
  · exact contents_nil herased fun q => by rw [← hA']; exact hquiet q
  · intro q e
    exact absurd e (not_asleep (by simp) q)

theorem ok_commit (h : s.Ok) (hp : s.phase p = .committing st) : (s.commit p st).Ok := by
  have hnext : ∀ t, (t = .eraseHead ∨ t = .finish → st = .eraseHead ∨ st = .finish) →
      (s.setPhase p (.committing t)).Ok := by
    intro t ht
    refine ok_setPhase h (by simp [hp]) ?_ (by simp) (by simp) (by simp)
    intro t' e
    rw [Phase.committing.injEq] at e
    exact ⟨st, hp, e ▸ ht⟩
  cases st with
  | test =>
    rw [LogSys.commit]
    split_ifs with hn
    · exact hnext _ (by simp)
    · have hlh : s.lh = [] := List.length_eq_zero_iff.1 (by omega)
      have e : ({ s with ended := [] } : LogSys) = { s with lh := [], ended := [] } := by rw [← hlh]
      rw [e]
      exact ok_emptied h hp
  | writeLog | writeHead | installTrans => exact hnext _ (by simp)
  | clear => exact ok_emptied h hp
  | eraseHead => exact hnext _ (by simp)
  | finish => exact ok_finish h hp

theorem step_group (h : s.Ok) (op : LogOp) : (logStep s op).Ok := by
  cases op with
  | beginOp p =>
    rw [logStep]
    split
    · exact ok_beginOp h (.inl ‹_›)
    · exact ok_beginOp h (.inr ‹_›)
    · exact h
  | wake p =>
    rw [logStep]
    split
    · exact ok_setPhase h (by simp [*, Phase.blocks]) (by simp) (by simp [*]) (by simp) (by simp)
    · exact h
  | logWrite p b =>
    rw [logStep]
    split
    · exact ok_logWrite h ‹_› b
    · exact h
  | logAppend p =>
    rw [logStep]
    split
    · exact ok_logAppend h ‹_›
    · exact h
  | endOp p =>
    rw [logStep]
    split
    · exact ok_endOp h ‹_›
    · exact h
  | commit p =>
    rw [logStep]
    split
    · exact ok_commit h ‹_›
    · exact h

/-! ## Runs -/

theorem ok_boot (size : Int) : (LogSys.boot size).Ok := by
  refine ⟨⟨∅, fun p => ?_, rfl⟩, ?_, ?_, ?_, ?_, ?_, ?_, List.nodup_nil, ?_, ?_, ?_⟩ <;>
    simp [LogSys.boot, LogSys.active, Phase.blocks]

theorem group_run (size : Int) (ops : List LogOp) : (logRun (LogSys.boot size) ops).Ok := by
  have hsteps : Along logStep (fun _ _ => True) (LogSys.boot size) ops := along_of_mem (fun _ _ _ => trivial) _
  exact along_inv (P := LogSys.Ok) (fun _ op _ h => step_group h op) hsteps (ok_boot size)

/-- the stages of commit up to `lh.n = 0` -/
def Stage.holdsBlocks : Stage → Bool
  | .test | .writeLog | .writeHead | .installTrans | .clear => true
  | _ => false

/-- **Isolation and progress of group commit.** In every state of every run: no operation is in progress while committing is
set, and end_op's panic is not reached. The header holds no block twice. What a commit writes are the blocks of the
operations that have ended since the last one, and no other operation has begun to log. And who sleeps in begin_op
waits for an operation in progress or for a commit that a process is making. -/
theorem group_commit (size : Int) (ops : List LogOp) :
    let s := logRun (LogSys.boot size) ops
    (s.committing = true → s.outstanding = 0 ∧ ∃ p st, s.phase p = .committing st) ∧
    (∀ p o, s.phase p ≠ .panicked "log.committing" o) ∧
    s.lh.Nodup ∧
    (∀ p st, s.phase p = .committing st → st.holdsBlocks →
      (∀ b, b ∈ s.lh ↔ ∃ o ∈ s.ended, b ∈ o) ∧ ∀ q, (s.phase q).blocks = none) ∧
    (∀ p, s.phase p = .asleep → 0 < s.outstanding ∨ s.committing = true) := by
  intro s
  have h : s.Ok := group_run size ops
  have hquiet : s.committing = true → ∀ q, (s.phase q).blocks = none := by
    intro hk q
    by_contra hq
    exact h.quiet hk q hq
  refine ⟨?_, h.sane, h.nodup, ?_, h.waiting⟩
  · intro hk
    refine ⟨?_, h.made hk⟩
    obtain ⟨A, hA, hn⟩ := h.count
    have hnone : A = ∅ := Finset.eq_empty_of_forall_notMem fun q hq => h.quiet hk q ((hA q).1 hq)
    rw [hn, hnone]; rfl
  · intro p st e _
    have hq := hquiet (h.committer p st e)
    refine ⟨fun b => ?_, hq⟩
    rw [h.contents b]
    simp [hq]

end Xv6.Fs
