/-
Log reservation: begin_op admits an operation only when the log has room for it, so that log_write need not wait.

- begin_op counts MAXOPBLOCKS blocks for every operation in progress and fills the log up to LOGSIZE blocks. log_write stops one
  short of that: with sb.nlog = LOGSIZE it panics when `log.size - 1` blocks are logged, even for a block that would be
  absorbed.
- `AtMost n`: no operation logs more than n distinct blocks.
- `left`: the blocks that the operation in progress may still add, out of MAXOPBLOCKS - 1.

Results:
- `room_run`: what is logged and what may still be added stay under `log.size - 1`;
- `log_reservation`: operations of at most MAXOPBLOCKS - 1 blocks never fill the log;
- `full_operations_panic`: three overlapping operations of MAXOPBLOCKS blocks do.
-/
import Xv6.Fs.Group

namespace Xv6.Fs

open Runs Finset

/-! ## Operations of bounded size -/

/-- the operation that logs b has logged at most n distinct blocks with it -/
def AtMost (n : ℕ) (s : LogSys) : LogOp → Prop
  | .logWrite p b =>
    match s.phase p with
    | .inOp bs => (insert b bs.toFinset).card ≤ n
    | _ => True
  | _ => True

instance (n : ℕ) (s : LogSys) : ∀ op, Decidable (AtMost n s op)
  | .logWrite p b =>
    match h : s.phase p with
    | .inOp bs => decidable_of_iff ((insert b bs.toFinset).card ≤ n) (by simp [AtMost, h])
    | .idle | .beginning | .asleep | .logging _ _ | .committing _ | .panicked _ _ => .isTrue (by simp [AtMost, h])
  | .beginOp _ | .wake _ | .logAppend _ | .endOp _ | .commit _ => .isTrue trivial

/-- how many more blocks the operation in progress may log -/
def Phase.left (ph : Phase) : ℕ :=
  match ph.blocks with
  | some bs => MAXOPBLOCKS - 1 - bs.toFinset.card
  | none => 0

variable {s s' : LogSys} {p : ℕ} {bs : List ℕ} {b : ℕ} {A B : Finset ℕ} {ph : Phase}

theorem left_of_blocks {ph ph' : Phase} (h : ph.blocks = ph'.blocks) : ph.left = ph'.left := by
  rw [Phase.left, Phase.left, h]

theorem left_none (h : ph.blocks = none) : ph.left = 0 := by rw [Phase.left, h]

theorem left_some (h : ph.blocks = some bs) : ph.left = MAXOPBLOCKS - 1 - bs.toFinset.card := by
  rw [Phase.left, h]

theorem left_le (ph : Phase) : ph.left ≤ MAXOPBLOCKS - 1 := by
  rw [Phase.left]
  split
  · exact Nat.sub_le _ _
  · exact Nat.zero_le _

/-! ## The room in the log -/

structure LogSys.Room (s : LogSys) : Prop where
  /-- what is logged and what may still be logged -/
  room : ∀ A : Finset ℕ, (∀ p, p ∈ A ↔ s.active p) → s.lh.length + ∑ p ∈ A, (s.phase p).left < LOGSIZE - 1
  /-- what is being logged has been counted -/
  logging : ∀ p bs b, s.phase p = .logging bs b → (insert b bs.toFinset).card ≤ MAXOPBLOCKS - 1
  size : s.size = LOGSIZE
  fits : ∀ p o, s.phase p ≠ .panicked "too big a transaction" o

/-- p's share of the sum -/
theorem sum_left (hA : ∀ q, q ∈ A ↔ s.active q) (p : ℕ) :
    ∑ q ∈ A, (s.phase q).left = (s.phase p).left + ∑ q ∈ A.erase p, (s.phase q).left := by
  by_cases hp : p ∈ A
  · exact (add_sum_erase A (fun q => (s.phase q).left) hp).symm
  · have hb : (s.phase p).blocks = none := by
      by_contra hb
      exact hp ((hA p).2 hb)
    rw [erase_eq_of_notMem hp, left_none hb, zero_add]

/-- the others keep their shares -/
theorem sum_others (ho : Others p s s') (hA : ∀ q, q ∈ A ↔ s.active q) (hB : ∀ q, q ∈ B ↔ s'.active q) :
    ∑ q ∈ B.erase p, (s'.phase q).left = ∑ q ∈ A.erase p, (s.phase q).left := by
  have hAB : B.erase p = A.erase p := by
    ext q
    simp only [mem_erase, hA, hB, LogSys.active]
    refine and_congr_right fun hq => ?_
    rw [others_blocks ho hq]
  rw [hAB]
  refine sum_congr rfl fun q hq => left_of_blocks ?_
  exact others_blocks ho (ne_of_mem_erase hq)

/-- a step of p that takes no more room than p gives up -/
theorem room_step (h : s.Ok) (hr : s.Room) (ho : Others p s s') (hsize : s'.size = s.size)
    (hle : s'.lh.length + (s'.phase p).left ≤ s.lh.length + (s.phase p).left)
    (hlog : ∀ bs b, s'.phase p = .logging bs b → (insert b bs.toFinset).card ≤ MAXOPBLOCKS - 1)
    (hfits : ∀ o, s'.phase p ≠ .panicked "too big a transaction" o) : s'.Room := by
  obtain ⟨A, hA, -⟩ := h.count
  refine ⟨?_, ?_, hsize.trans hr.size, ?_⟩
  · intro B hB
    have hold := hr.room A hA
    rw [sum_left hA p] at hold
    rw [sum_left hB p, sum_others ho hA hB]
    omega
  · intro q bs b e
    by_cases hq : q = p
    · rw [hq] at e
      exact hlog bs b e
    · rcases ho q hq with e' | ⟨-, e'⟩
      · exact hr.logging q bs b (e' ▸ e)
      · rw [e'] at e; cases e
  · intro q o e
    by_cases hq : q = p
    · rw [hq] at e
      exact hfits o e
    · exact hr.fits q o (others_panicked ho hq e)

theorem room_setPhase (h : s.Ok) (hr : s.Room) (hb : ph.blocks = (s.phase p).blocks)
    (hlog : ∀ bs b, ph = .logging bs b → (insert b bs.toFinset).card ≤ MAXOPBLOCKS - 1)
    (hfits : ∀ o, ph ≠ .panicked "too big a transaction" o) : (s.setPhase p ph).Room := by
  refine room_step h hr (others_setPhase s p ph) rfl ?_ (by simpa using hlog) (by simpa using hfits)
  rw [setPhase_self, left_of_blocks hb]
  exact le_refl _

/-- p leaves its operation, or is in none -/
theorem room_outside (h : s.Ok) (hr : s.Room) (ho : Others p s s') (hsize : s'.size = s.size)
    (hlh : s'.lh.length ≤ s.lh.length) (hself : s'.phase p = ph) (hb : ph.blocks = none)
    (hfits : ∀ o, ph ≠ .panicked "too big a transaction" o) : s'.Room := by
  refine room_step h hr ho hsize ?_ ?_ (by rwa [hself])
  · rw [hself, left_none hb]
    omega
  · intro bs b e
    rw [hself] at e
    rw [e] at hb
    cases hb

theorem room_beginOp (h : s.Ok) (hr : s.Room) (hp : s.phase p = .idle ∨ s.phase p = .beginning) : (s.beginOp p).Room := by
  have hb : (s.phase p).blocks = none := by rcases hp with e | e <;> rw [e] <;> rfl
  rw [LogSys.beginOp]
  split_ifs with hk hfull
  · exact room_setPhase h hr hb.symm (by simp) (by simp)
  · exact room_setPhase h hr hb.symm (by simp) (by simp)
  · have ho : Others p s ({ s with outstanding := s.outstanding + 1 }.setPhase p (.inOp [])) := others_setPhase _ p _
    obtain ⟨A, hA, hn⟩ := h.count
    have hpA : p ∉ A := by rw [hA]; simp [LogSys.active, hb]
    refine ⟨?_, ?_, hr.size, ?_⟩
    · intro B hB
      rw [sum_left hB p, sum_others ho hA hB, setPhase_self, erase_eq_of_notMem hpA]
      have hle : ∑ q ∈ A, (s.phase q).left ≤ A.card * (MAXOPBLOCKS - 1) := sum_le_card_nsmul _ _ _ fun q _ => left_le _
      have hlog := LOGSIZE_eq
      have hmax : MAXOPBLOCKS = 10 := rfl
      have hnew : (Phase.inOp []).left = 9 := rfl
      rw [hnew]
      show s.lh.length + _ < _
      rw [hmax, hlog] at hfull
      rcases Nat.eq_zero_or_pos A.card with h0 | hpos
      · -- with no operation in progress the log is empty
        have hlh := (h.empty (by simpa using hk) (by omega)).1
        rw [hlh, List.length_nil]
        rw [hmax] at hle
        omega
      · rw [hmax] at hle
        push_cast at hfull
        omega
    · intro q bs b e
      by_cases hq : q = p
      · rw [hq, setPhase_self] at e; cases e
      · exact hr.logging q bs b ((Function.update_of_ne hq ..).symm.trans e)
    · intro q o e
      by_cases hq : q = p
      · rw [hq, setPhase_self] at e; cases e
      · exact hr.fits q o (others_panicked ho hq e)

/-- a process in an operation finds room -/
theorem logged_lt (h : s.Ok) (hr : s.Room) : s.lh.length < LOGSIZE - 1 := by
  obtain ⟨A, hA, -⟩ := h.count
  exact lt_of_le_of_lt (Nat.le_add_right _ _) (hr.room A hA)

theorem room_logWrite (h : s.Ok) (hr : s.Room) (hp : s.phase p = .inOp bs)
    (hc : (insert b bs.toFinset).card ≤ MAXOPBLOCKS - 1) : (s.logWrite p bs b).Room := by
  have hb : (s.phase p).blocks = some bs := by rw [hp]; rfl
  have hn := logged_lt h hr
  have hlog := LOGSIZE_eq
  rw [LogSys.logWrite]
  split_ifs with hfull
  · rw [hr.size, hlog] at hfull
    omega
  · exact room_setPhase h hr hb.symm (by simp) (by simp)
  · refine room_setPhase h hr hb.symm ?_ (by simp)
    rintro _ _ ⟨⟩
    exact hc

theorem room_logAppend (h : s.Ok) (hr : s.Room) (hp : s.phase p = .logging bs b) : (s.logAppend p bs b).Room := by
  have hb : (s.phase p).blocks = some bs := by rw [hp]; rfl
  have hc := hr.logging p bs b hp
  have hself : (s.logAppend p bs b).phase p = .inOp (b :: bs) := setPhase_self
  refine room_step h hr (others_setPhase { s with lh := _ } p _) rfl ?_ (by simp [hself]) (by simp [hself])
  rw [hself, left_some (blocks_inOp _), left_some hb, List.toFinset_cons]
  show (if b ∈ s.lh then s.lh else s.lh ++ [b]).length + _ ≤ _
  split_ifs with hin
  · have := card_le_card (subset_insert b bs.toFinset)
    omega
  · -- a block that is not logged is new to the operation too
    have hnew : b ∉ bs.toFinset := fun hmem =>
      hin ((h.contents b).2 (.inr ⟨p, bs, hb, List.mem_toFinset.1 hmem⟩))
    rw [card_insert_of_notMem hnew] at hc ⊢
    rw [List.length_append, List.length_singleton]
    omega

theorem room_endOp (h : s.Ok) (hr : s.Room) : (s.endOp p bs).Room := by
  rw [LogSys.endOp]
  split_ifs
  · exact room_outside h hr (others_setPhase _ p _) rfl (le_refl s.lh.length) setPhase_self rfl (by simp)
  · exact room_outside h hr (others_setPhase _ p _) rfl (le_refl s.lh.length) setPhase_self rfl (by simp)
  · exact room_outside h hr (others_wakeup _ p _) rfl (le_refl s.lh.length) setPhase_self rfl (by simp)

theorem room_commit (h : s.Ok) (hr : s.Room) {st : Stage} (hp : s.phase p = .committing st) : (s.commit p st).Room := by
  have hnext : ∀ t, (s.setPhase p (.committing t)).Room := fun t =>
    room_setPhase h hr (by simp [hp]) (by simp) (by simp)
  cases st with
  | test =>
    rw [LogSys.commit]
    split_ifs
    · exact hnext _
    · exact room_outside h hr (others_setPhase _ p _) rfl (le_refl s.lh.length) setPhase_self rfl (by simp)
  | writeLog | writeHead | installTrans => exact hnext _
  | clear => exact room_outside h hr (others_setPhase _ p _) rfl (Nat.zero_le s.lh.length) setPhase_self rfl (by simp)
  | eraseHead => exact hnext _
  | finish => exact room_outside h hr (others_wakeup _ p _) rfl (le_refl s.lh.length) setPhase_self rfl (by simp)

theorem step_room (h : s.Ok) (hr : s.Room) {op : LogOp} (hc : AtMost (MAXOPBLOCKS - 1) s op) : (logStep s op).Room := by
  cases op with
  | beginOp p =>
    rw [logStep]
    split
    · exact room_beginOp h hr (.inl ‹_›)
    · exact room_beginOp h hr (.inr ‹_›)
    · exact hr
  | wake p =>
    rw [logStep]
    split
    · exact room_setPhase h hr (by simp [*, Phase.blocks]) (by simp) (by simp)
    · exact hr
  | logWrite p b =>
    rw [logStep]
    split
    · rename_i e
      rw [AtMost, e] at hc
      exact room_logWrite h hr e hc
    · exact hr
  | logAppend p =>
    rw [logStep]
    split
    · exact room_logAppend h hr ‹_›
    · exact hr
  | endOp p =>
    rw [logStep]
    split
    · exact room_endOp h hr
    · exact hr
  | commit p =>
    rw [logStep]
    split
    · exact room_commit h hr ‹_›
    · exact hr

/-! ## Runs -/

theorem room_boot : (LogSys.boot LOGSIZE).Room := by
  refine ⟨fun A hA => ?_, by simp [LogSys.boot], rfl, by simp [LogSys.boot]⟩
  rw [sum_eq_zero fun p _ => left_none rfl]
  decide

theorem room_run {ops : List LogOp} (h : Along logStep (AtMost (MAXOPBLOCKS - 1)) (LogSys.boot LOGSIZE) ops) :
    (logRun (LogSys.boot LOGSIZE) ops).Room := by
  have hinv : (logRun (LogSys.boot LOGSIZE) ops).Ok ∧ (logRun (LogSys.boot LOGSIZE) ops).Room :=
    along_inv (P := fun s => s.Ok ∧ s.Room) (fun s op hc ⟨hs, hr⟩ => ⟨step_group hs op, step_room hs hr hc⟩) h
      ⟨ok_boot LOGSIZE, room_boot⟩
  exact hinv.2

/-- **Reservation suffices below MAXOPBLOCKS.** On an image with sb.nlog = LOGSIZE, in every run whose operations each log at
most MAXOPBLOCKS - 1 distinct blocks, however they overlap, log_write never panics for want of room. -/
theorem log_reservation (ops : List LogOp)
    (h : Along logStep (AtMost (MAXOPBLOCKS - 1)) (LogSys.boot LOGSIZE) ops) (p : ℕ) (o : Option (List ℕ)) :
    (logRun (LogSys.boot LOGSIZE) ops).phase p ≠ .panicked "too big a transaction" o :=
  (room_run h).fits p o

/-- log_write by process p of the n blocks from b on -/
def logMany (p b n : ℕ) : List LogOp := (List.range n).flatMap fun i => [.logWrite p (b + i), .logAppend p]

/-- three operations at once, of n blocks each -/
def threeAtOnce (n : ℕ) : List LogOp :=
  [.beginOp 0, .beginOp 1, .beginOp 2] ++ logMany 0 100 n ++ logMany 1 200 n ++ logMany 2 300 n

theorem log_reservation_threeAtOnce :
    Along logStep (AtMost (MAXOPBLOCKS - 1)) (LogSys.boot LOGSIZE) (threeAtOnce 9) ∧
    (logRun (LogSys.boot LOGSIZE) (threeAtOnce 9)).lh.length = 27 ∧
    (logRun (LogSys.boot LOGSIZE) (threeAtOnce 9)).phase 2 ≠ .panicked "too big a transaction" none :=
  ⟨by decide +kernel, by decide +kernel, log_reservation (threeAtOnce 9) (by decide +kernel) 2 none⟩

/-- Three operations, each admitted by begin_op and none logging more than MAXOPBLOCKS blocks: the last log_write finds
29 blocks logged and panics. -/
theorem full_operations_panic :
    Along logStep (AtMost MAXOPBLOCKS) (LogSys.boot LOGSIZE) (threeAtOnce 10) ∧
    (logRun (LogSys.boot LOGSIZE) (threeAtOnce 10)).phase 2 =
      .panicked "too big a transaction" (some ((List.range 9).map (308 - ·))) :=
  ⟨by decide +kernel, by decide +kernel⟩

end Xv6.Fs
