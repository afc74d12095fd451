/-
The buffer cache is transparent: a block outside the log area reads as it was last given.

Commit copies the logged blocks to the log and from the log home while other processes read. The invariant follows it:
- until a block is copied, its copy is in what commit has left to do; from then on, the log block shows what the block shows;
- nobody changes a block meanwhile, for no operation is in progress (`LogSys.Ok`), so that installing it changes nothing;
- a logged block's buffer is dirty until it is installed, and a dirty buffer is not reused.

log_write tests for a full log without the lock, so the header can take one block more than the log area holds. Then
every one of the NBUF buffers is dirty, and commit panics in its first bread, before it writes anything.

Results:
- `step_cache`, `cache_run`: the invariant;
- `cache_transparent`: what bread returns, one buffer for a block, no reuse of a logged one.
-/
import Xv6.Fs.Cache

namespace Xv6.Fs

open Runs Writes Function List

/-! ## What a step of the log protocol can do -/

section LogSteps

variable {l : LogSys} {p q b : ℕ} {bs : List ℕ} {st : Stage} {op : LogOp}

/-- a step that is not commit's -/
structure LogFrame (op : LogOp) (l l' : LogSys) : Prop where
  size : l'.size = l.size
  lh : (∀ p, op ≠ .logAppend p) → l'.lh = l.lh
  stays : ∀ q st, l.phase q = .committing st → l'.phase q = .committing st
  committing : ∀ q st, l'.phase q = .committing st → l.phase q = .committing st ∨ st = .test ∧ op = .endOp q
  logging : ∀ q bs b, l'.phase q = .logging bs b → l.phase q = .logging bs b ∨ op = .logWrite q b
  active : ∀ q, l.active q → l'.active q ∨ op = .endOp q

theorem logFrame_refl (op : LogOp) (l : LogSys) : LogFrame op l l :=
  ⟨rfl, fun _ => rfl, fun _ _ e => e, fun _ _ e => .inl e, fun _ _ _ e => .inl e, fun _ h => .inl h⟩

/-- what is to be said of the process that moves, from phase ph to phase ph' -/
theorem logFrame_of {l' : LogSys} {ph ph' : Phase} (ho : Others p l l') (hsize : l'.size = l.size)
    (hlh : (∀ p, op ≠ .logAppend p) → l'.lh = l.lh) (hp : l.phase p = ph) (hp' : l'.phase p = ph')
    (hc : ∀ st, ph ≠ .committing st) (hc' : ∀ st, ph' = .committing st → st = .test ∧ op = .endOp p)
    (hl : ∀ bs b, ph' = .logging bs b → op = .logWrite p b) (ha : ph.blocks ≠ none → ph'.blocks ≠ none ∨ op = .endOp p) :
    LogFrame op l l' := by
  refine ⟨hsize, hlh, ?_, ?_, ?_, ?_⟩
  · intro q st e
    by_cases hq : q = p
    · rw [hq, hp] at e
      exact absurd e (hc st)
    · exact committing_others ho hq e
  · intro q st e
    by_cases hq : q = p
    · rw [hq, hp'] at e
      rw [hq]; exact .inr (hc' st e)
    · exact .inl (others_committing ho hq e)
  · intro q bs b e
    by_cases hq : q = p
    · rw [hq, hp'] at e
      rw [hq]; exact .inr (hl bs b e)
    · rcases ho q hq with e' | ⟨-, e'⟩
      · exact .inl (e' ▸ e)
      · rw [e'] at e; cases e
  · intro q h
    by_cases hq : q = p
    · rw [hq, LogSys.active, hp] at h
      rw [hq, LogSys.active, hp']; exact ha h
    · left
      rw [LogSys.active, others_blocks ho hq]; exact h

theorem logFrame_logStep (l : LogSys) (hop : ∀ p, op ≠ .commit p) : LogFrame op l (logStep l op) := by
  cases op with
  | beginOp p =>
    have hbegin (hp : l.phase p = .idle ∨ l.phase p = .beginning) : LogFrame (.beginOp p) l (l.beginOp p) := by
      have hc : ∀ st, l.phase p ≠ .committing st := by rcases hp with e | e <;> simp [e]
      have ha : (l.phase p).blocks = none := by rcases hp with e | e <;> rw [e] <;> rfl
      rw [LogSys.beginOp]
      split_ifs
      · exact logFrame_of (others_setPhase l p _) rfl (fun _ => rfl) rfl setPhase_self hc (by simp) (by simp) (by simp [ha])
      · exact logFrame_of (others_setPhase l p _) rfl (fun _ => rfl) rfl setPhase_self hc (by simp) (by simp) (by simp [ha])
      · exact logFrame_of (others_setPhase { l with outstanding := _ } p _) rfl (fun _ => rfl) rfl setPhase_self hc (by simp)
          (by simp) (by simp [ha])
    rw [logStep]
    split
    · exact hbegin (.inl ‹_›)
    · exact hbegin (.inr ‹_›)
    · exact logFrame_refl _ l
  | wake p =>
    rw [logStep]
    split
    · rename_i e
      exact logFrame_of (others_setPhase l p _) rfl (fun _ => rfl) e setPhase_self (by simp) (by simp) (by simp)
        (by simp [Phase.blocks])
    · exact logFrame_refl _ l
  | logWrite p b =>
    rw [logStep]
    split
    · rename_i e
      rw [LogSys.logWrite]
      split_ifs
      · exact logFrame_of (others_setPhase l p _) rfl (fun _ => rfl) e setPhase_self (by simp) (by simp) (by simp)
          (by simp [Phase.blocks])
      · exact logFrame_of (others_setPhase l p _) rfl (fun _ => rfl) e setPhase_self (by simp) (by simp) (by simp)
          (by simp [Phase.blocks])
      · refine logFrame_of (others_setPhase l p _) rfl (fun _ => rfl) e setPhase_self (by simp) (by simp) ?_
          (by simp [Phase.blocks])
        rintro _ _ ⟨⟩
        rfl
    · exact logFrame_refl _ l
  | logAppend p =>
    rw [logStep]
    split
    · rename_i e
      exact logFrame_of (others_setPhase { l with lh := _ } p _) rfl (fun h => absurd rfl (h p)) e setPhase_self (by simp)
        (by simp) (by simp) (by simp)
    · exact logFrame_refl _ l
  | endOp p =>
    rw [logStep]
    split
    · rename_i e
      rw [LogSys.endOp]
      split_ifs
      · exact logFrame_of (others_setPhase { l with outstanding := _ } p _) rfl (fun _ => rfl) e setPhase_self (by simp)
          (by simp) (by simp) (by simp)
      · refine logFrame_of (others_setPhase { l with outstanding := _, committing := _, ended := _ } p _) rfl (fun _ => rfl) e
          setPhase_self (by simp) ?_ (by simp) (by simp)
        rintro _ ⟨⟩
        exact ⟨rfl, rfl⟩
      · exact logFrame_of (others_wakeup { l with outstanding := _, ended := _ } p _) rfl (fun _ => rfl) e setPhase_self
          (by simp) (by simp) (by simp) (by simp)
    · exact logFrame_refl _ l
  | commit p => exact absurd rfl (hop p)

/-- the next stage of commit: from stage st on, the process is at stage t or done -/
def Stage.next (l : LogSys) : Stage → Option Stage
  | .test => if 0 < l.lh.length then some .writeLog else some .finish
  | .writeLog => some .writeHead
  | .writeHead => some .installTrans
  | .installTrans => some .clear
  | .clear => some .eraseHead
  | .eraseHead => some .finish
  | .finish => none

theorem logStep_commit (h : l.phase p = .committing st) :
    Others p l (logStep l (.commit p)) ∧ (logStep l (.commit p)).size = l.size ∧
    (logStep l (.commit p)).lh = (if st = .clear then [] else l.lh) ∧
    (logStep l (.commit p)).phase p = ((st.next l).elim .idle Phase.committing) := by
  rw [logStep, h]
  cases st with
  | test =>
    by_cases hn : 0 < l.lh.length
    · simp only [LogSys.commit, Stage.next, if_pos hn]
      exact ⟨others_setPhase l p _, rfl, rfl, setPhase_self⟩
    · simp only [LogSys.commit, Stage.next, if_neg hn]
      exact ⟨others_setPhase { l with ended := _ } p _, rfl, rfl, setPhase_self⟩
  | writeLog | writeHead | installTrans => exact ⟨others_setPhase l p _, rfl, rfl, setPhase_self⟩
  | clear => exact ⟨others_setPhase { l with lh := _, ended := _ } p _, rfl, rfl, setPhase_self⟩
  | eraseHead => exact ⟨others_setPhase l p _, rfl, rfl, setPhase_self⟩
  | finish => exact ⟨others_wakeup { l with committing := _ } p _, rfl, rfl, setPhase_self⟩

end LogSteps

/-! ## The scripts of commit -/

section Scripts

variable {start tail t : ℕ} {lh : List ℕ} {a : LogAct} {rest : List LogAct} {st : Stage}

/-- the actions for one block: both buffers are read, one is copied to the other and written, both are released -/
theorem block_next {x y src dst u w : ℕ} {more : List LogAct}
    (h : a :: rest <:+ [.bread x, .bread y, .copy src dst, .bwrite dst, .brelse u, .brelse w] ++ more) :
    ((∃ z, a = .bread z ∨ a = .brelse z) ∨ a = .bwrite dst ∨ a = .copy src dst ∧ ∃ r, rest = .bwrite dst :: r) ∨
      a :: rest <:+ more := by
  simp only [cons_append, nil_append, suffix_cons_iff, List.cons.injEq] at h
  rcases h with ⟨rfl, -⟩ | ⟨rfl, -⟩ | ⟨rfl, rfl⟩ | ⟨rfl, -⟩ | ⟨rfl, -⟩ | ⟨rfl, -⟩ | h
  · exact .inl (.inl ⟨_, .inl rfl⟩)
  · exact .inl (.inl ⟨_, .inl rfl⟩)
  · exact .inl (.inr (.inr ⟨rfl, _, rfl⟩))
  · exact .inl (.inr (.inl rfl))
  · exact .inl (.inl ⟨_, .inr rfl⟩)
  · exact .inl (.inl ⟨_, .inr rfl⟩)
  · exact .inr h

theorem writeLog_next (h : a :: rest <:+ writeLogActs start lh tail) : ∃ t, ∃ ht : t < lh.length,
    (∃ x, a = .bread x ∨ a = .brelse x) ∨ a = .bwrite (start + (tail + t) + 1) ∨
      a = .copy lh[t] (start + (tail + t) + 1) ∧ ∃ r, rest = .bwrite (start + (tail + t) + 1) :: r := by
  induction lh generalizing tail with
  | nil => simp [writeLogActs] at h
  | cons b lh ih =>
    rcases block_next h with hb | h
    · exact ⟨0, by simp, hb⟩
    · obtain ⟨t, ht, hcases⟩ := ih h
      refine ⟨t + 1, by simpa using ht, ?_⟩
      rw [getElem_cons_succ, show tail + (t + 1) = tail + 1 + t by omega]
      exact hcases

theorem install_next (h : a :: rest <:+ installActs start lh tail) : ∃ t, ∃ ht : t < lh.length,
    (∃ x, a = .bread x ∨ a = .brelse x) ∨ a = .bwrite lh[t] ∨
      a = .copy (start + (tail + t) + 1) lh[t] ∧ ∃ r, rest = .bwrite lh[t] :: r := by
  induction lh generalizing tail with
  | nil => simp [installActs] at h
  | cons b lh ih =>
    rcases block_next h with hb | h
    · exact ⟨0, by simp, hb⟩
    · obtain ⟨t, ht, hcases⟩ := ih h
      refine ⟨t + 1, by simpa using ht, ?_⟩
      rw [getElem_cons_succ, show tail + (t + 1) = tail + 1 + t by omega]
      exact hcases

theorem writeHead_next (h : a :: rest <:+ writeHeadActs start lh) :
    (∃ x, a = .bread x ∨ a = .brelse x) ∨ a = .bwrite start ∨ a = .head lh ∧ ∃ r, rest = .bwrite start :: r := by
  simp only [writeHeadActs, suffix_cons_iff, List.cons.injEq, suffix_nil, reduceCtorEq, or_false] at h
  rcases h with ⟨rfl, -⟩ | ⟨rfl, rfl⟩ | ⟨rfl, -⟩ | ⟨rfl, -⟩
  · exact .inl ⟨_, .inl rfl⟩
  · exact .inr (.inr ⟨rfl, _, rfl⟩)
  · exact .inr (.inl rfl)
  · exact .inl ⟨_, .inr rfl⟩

/-- every logged block is to be copied -/
theorem copy_mem (ht : t < lh.length) : .copy lh[t] (start + (tail + t) + 1) ∈ writeLogActs start lh tail := by
  induction lh generalizing tail t with
  | nil => simp at ht
  | cons b lh ih =>
    cases t with
    | zero => simp [writeLogActs]
    | succ t =>
      have ht' : t < lh.length := by simpa using ht
      have hmem : .copy lh[t] (start + (tail + 1 + t) + 1) ∈ writeLogActs start lh (tail + 1) := ih ht'
      rw [getElem_cons_succ, show tail + (t + 1) = tail + 1 + t by omega, writeLogActs]
      exact mem_append_right _ hmem

/-- **What commit does next.** A change in place is followed by the bwrite of the block; it is of a log block, or of a logged
block from its log block, or of the header. -/
theorem stage_next (h : a :: rest <:+ stageActs start lh st) :
    (∃ x, a = .bread x ∨ a = .brelse x) ∨
    (∃ t, ∃ ht : t < lh.length, st = .writeLog ∧
      (a = .bwrite (start + t + 1) ∨ a = .copy lh[t] (start + t + 1) ∧ ∃ r, rest = .bwrite (start + t + 1) :: r)) ∨
    (∃ t, ∃ ht : t < lh.length, st = .installTrans ∧
      (a = .bwrite lh[t] ∨ a = .copy (start + t + 1) lh[t] ∧ ∃ r, rest = .bwrite lh[t] :: r)) ∨
    ((st = .writeHead ∨ st = .eraseHead) ∧ (a = .bwrite start ∨ a = .head lh ∧ ∃ r, rest = .bwrite start :: r)) := by
  cases st with
  | writeLog =>
    obtain ⟨t, ht, hcases⟩ := writeLog_next h
    rw [Nat.zero_add] at hcases
    exact hcases.imp_right fun hc => .inl ⟨t, ht, rfl, hc⟩
  | installTrans =>
    obtain ⟨t, ht, hcases⟩ := install_next h
    rw [Nat.zero_add] at hcases
    exact hcases.imp_right fun hc => .inr (.inl ⟨t, ht, rfl, hc⟩)
  | writeHead => exact (writeHead_next h).imp_right fun hc => .inr (.inr ⟨.inl rfl, hc⟩)
  | eraseHead => exact (writeHead_next h).imp_right fun hc => .inr (.inr ⟨.inr rfl, hc⟩)
  | test | clear | finish => simp [stageActs] at h

end Scripts

/-! ## The invariant -/

variable {s s' : CacheSys} {d : Disk} {p q x b : ℕ} {i j : Fin NBUF} {st : Stage}

structure CacheSys.Ok (d : Disk) (s : CacheSys) : Prop where
  bufs : s.Bufs
  log : s.log.Ok
  size : (LOGSIZE : Int) ≤ s.log.size
  /-- a block outside the log area shows what it was last given -/
  current : ∀ x, s.home x → s.view x = apply s.given d x
  home : ∀ b ∈ s.log.lh, s.home b
  logging : ∀ p bs b, s.log.phase p = .logging bs b → s.home b ∧ s.call p = .idle
  /-- who changes a buffer is in an operation, or about to write it -/
  owner : ∀ i p, s.touched i = true → (s.buf i).lock = some p →
    s.log.active p ∨ ∃ r, s.script p = .bwrite (s.buf i).blockno :: r
  pinned : (∀ p st, s.log.phase p = .committing st → st ≠ .installTrans ∧ st ≠ .clear) →
    ∀ b ∈ s.log.lh, ∃ i, s.caches i b ∧ (s.buf i).dirty = true
  outside : ∀ p, (∀ st, s.log.phase p ≠ .committing st) → s.script p = []
  script : ∀ p st, s.log.phase p = .committing st → s.script p <:+ stageActs s.start s.log.lh st
  copying : ∀ p, s.log.phase p = .committing .writeLog → (s.log.lh.length : Int) < s.log.size →
    ∀ t (ht : t < s.log.lh.length),
      .copy s.log.lh[t] (s.start + t + 1) ∈ s.script p ∨ s.view (s.start + t + 1) = s.view s.log.lh[t]
  copied : ∀ p st, s.log.phase p = .committing st → st = .writeHead ∨ st = .installTrans →
    (s.log.lh.length : Int) < s.log.size ∧
      ∀ t (ht : t < s.log.lh.length), s.view (s.start + t + 1) = s.view s.log.lh[t]
  /-- a log that is too full is not written -/
  full : s.log.size ≤ s.log.lh.length → ∀ p st, s.log.phase p = .committing st →
    st = .test ∨ st = .writeLog ∧ (s.script p = stageActs s.start s.log.lh st ∨ ∃ m, s.call p = .panicked m)

theorem home_congr (hstart : s'.start = s.start) (hsize : s'.log.size = s.log.size) : s'.home x ↔ s.home x := by
  rw [CacheSys.home, CacheSys.home, hstart, hsize]

/-- log blocks are not outside the log area -/
theorem log_block_not_home {t : ℕ} (ht : (t : Int) < s.log.size) : ¬ s.home (s.start + t) := by
  rintro (h | h)
  · omega
  · push_cast at h; omega

/-- the buffers do not depend on the log, the scripts or the history -/
theorem bufs_with (h : s.Bufs) (l : LogSys) (f : ℕ → List LogAct) (g : List (ℕ × Block)) :
    CacheSys.Bufs { s with log := l, script := f, given := g } :=
  ⟨h.mem, h.unique, h.count, h.waits, h.locked, h.valid, h.dirty, h.touched, h.clean⟩

/-- one process commits -/
theorem CacheSys.Ok.only (h : s.Ok d) (hp : s.log.phase p = .committing st) {st' : Stage}
    (hq : s.log.phase q = .committing st') : q = p ∧ st' = st := by
  have e := h.log.only q p st' st hq hp
  rw [e, hp, Phase.committing.injEq] at hq
  exact ⟨e, hq.symm⟩

/-- while p commits, nobody is in an operation, and the only script is p's -/
theorem CacheSys.Ok.alone (h : s.Ok d) (hp : s.log.phase p = .committing st) :
    (∀ q, ¬ s.log.active q) ∧ ∀ q a r, s.script q = a :: r → q = p := by
  refine ⟨h.log.quiet (h.log.committer p st hp), fun q a r e => ?_⟩
  by_contra hq
  have hno : ∀ st', s.log.phase q ≠ .committing st' := fun st' e' => hq (h.only hp e').1
  rw [h.outside q hno] at e
  cases e

/-- what p is about to write is the only buffer that is being changed -/
theorem CacheSys.Ok.untouched (h : s.Ok d) (hp : s.log.phase p = .committing st)
    (hs : ∀ r, s.script p ≠ .bwrite (s.buf i).blockno :: r) : s.touched i = false := by
  by_contra ht
  have ht : s.touched i = true := by simpa using ht
  obtain ⟨q, hq⟩ := Option.ne_none_iff_exists'.1 (h.bufs.touched i ht).2
  rcases h.owner i q ht hq with ha | ⟨r, e⟩
  · exact (h.alone hp).1 q ha
  · rw [(h.alone hp).2 q _ r e] at e
    exact hs r e

/-! ## Steps of bio.c -/

/-- **A step that leaves the log and the history alone**, and takes p's script to r: what is to be said of the buffers. -/
theorem ok_script {r : List LogAct} (h : s.Ok d) (hbufs : s'.Bufs) (elog : s'.log = s.log) (estart : s'.start = s.start)
    (egiven : s'.given = s.given) (escript : s'.script = update s.script p r)
    (hcall : ∀ q, q ≠ p → s'.call q = s.call q) (hlog : ∀ bs b, s.log.phase p ≠ .logging bs b) (hr : r <:+ s.script p)
    (hview : ∀ x, s.home x → s'.view x = s.view x)
    (hown : ∀ i q, s'.touched i = true → (s'.buf i).lock = some q →
      s.log.active q ∨ ∃ r', update s.script p r q = .bwrite (s'.buf i).blockno :: r')
    (hpin : (∀ p st, s.log.phase p = .committing st → st ≠ .installTrans ∧ st ≠ .clear) →
      ∀ b ∈ s.log.lh, ∃ i, s'.caches i b ∧ (s'.buf i).dirty = true)
    (hcopying : ∀ q, s.log.phase q = .committing .writeLog → (s.log.lh.length : Int) < s.log.size →
      ∀ t (ht : t < s.log.lh.length), .copy s.log.lh[t] (s.start + t + 1) ∈ update s.script p r q ∨
        s'.view (s.start + t + 1) = s'.view s.log.lh[t])
    (hcopied : ∀ q st, s.log.phase q = .committing st → st = .writeHead ∨ st = .installTrans →
      (s.log.lh.length : Int) < s.log.size ∧ ∀ t (ht : t < s.log.lh.length), s'.view (s.start + t + 1) = s'.view s.log.lh[t])
    (hfull : s.log.size ≤ s.log.lh.length → ∀ st, s.log.phase p = .committing st →
      st = .test ∨ st = .writeLog ∧ (r = stageActs s.start s.log.lh st ∨ ∃ m, s'.call p = .panicked m)) : s'.Ok d := by
  have hhome : ∀ x, s'.home x ↔ s.home x := fun x => home_congr estart (by rw [elog])
  have hself : s'.script p = r := by rw [escript, update_self]
  have hother : ∀ q, q ≠ p → s'.script q = s.script q := fun q hq => by rw [escript, update_of_ne hq]
  refine ⟨hbufs, elog ▸ h.log, elog ▸ h.size, ?_, ?_, ?_, ?_, elog ▸ hpin, ?_, ?_, ?_, ?_, ?_⟩
  · intro x hx
    have hx := (hhome x).1 hx
    rw [egiven, hview x hx, h.current x hx]
  · intro b hb
    exact (hhome b).2 (h.home b (elog ▸ hb))
  · intro q bs b e
    rw [elog] at e
    have hq : q ≠ p := fun hq => hlog bs b (hq ▸ e)
    rw [hcall q hq]
    exact ⟨(hhome b).2 (h.logging q bs b e).1, (h.logging q bs b e).2⟩
  · rw [elog, escript]
    exact hown
  · intro q hno
    rw [elog] at hno
    by_cases hq : q = p
    · rw [hq] at hno ⊢
      rw [h.outside p hno] at hr
      rw [hself, suffix_nil.1 hr]
    · rw [hother q hq, h.outside q hno]
  · intro q st e
    rw [elog] at e ⊢
    rw [estart]
    by_cases hq : q = p
    · rw [hq] at e ⊢
      rw [hself]; exact hr.trans (h.script p st e)
    · rw [hother q hq]; exact h.script q st e
  · simpa only [elog, estart, escript] using hcopying
  · simpa only [elog, estart] using hcopied
  · intro hf q st e
    rw [elog] at hf e ⊢
    rw [estart]
    by_cases hq : q = p
    · rw [hq] at e ⊢
      rw [hself]; exact hfull hf st e
    · rw [hother q hq, hcall q hq]; exact h.full hf q st e

theorem ok_quiet_script (h : s.Ok d) (hq : Quiet p s s') (hlog : ∀ bs b, s.log.phase p ≠ .logging bs b) {r : List LogAct}
    (hr : r <:+ s.script p) (hcopy : ∀ x y, .copy x y ∈ s.script p → .copy x y ∈ r)
    (hown : ∀ i, s.touched i = true → (s.buf i).lock = some p →
      s.log.active p ∨ ∃ r', r = .bwrite (s.buf i).blockno :: r')
    (hfull : s.log.size ≤ s.log.lh.length → ∀ st, s.log.phase p = .committing st →
      st = .test ∨ st = .writeLog ∧ (r = stageActs s.start s.log.lh st ∨ ∃ m, s'.call p = .panicked m)) :
    CacheSys.Ok d { s' with script := update s'.script p r } := by
  obtain ⟨hbufs, elog, estart, escript, egiven, hcall, hview, hpin, htouch⟩ := hq
  refine ok_script h (bufs_with hbufs s'.log _ s'.given) elog estart egiven (by rw [escript]) hcall hlog hr
    (fun x _ => hview x) ?_ ?_ ?_ ?_ hfull
  · intro j q ht hl
    obtain ⟨ht, elock, eno⟩ := htouch j ht
    have hl : (s.buf j).lock = some q := elock ▸ hl
    show _ ∨ ∃ r', _ = LogAct.bwrite (s'.buf j).blockno :: r'
    rw [eno]
    by_cases hqp : q = p
    · rw [hqp, update_self]
      exact hown j ht (hqp ▸ hl)
    · rw [update_of_ne hqp]; exact h.owner j q ht hl
  · intro hst b hb
    obtain ⟨j, hc, hd⟩ := h.pinned hst b hb
    obtain ⟨hd', edev, eno⟩ := hpin j hd
    exact ⟨j, ⟨edev.trans hc.1, eno.trans hc.2⟩, hd'⟩
  · intro q e hlt t ht
    show _ ∨ s'.view _ = s'.view _
    rw [hview, hview]
    by_cases hqp : q = p
    · rw [hqp] at e ⊢
      rw [update_self]
      exact (h.copying p e hlt t ht).imp_left (hcopy _ _)
    · rw [update_of_ne hqp]; exact h.copying q e hlt t ht
  · intro q st e hst
    show _ ∧ ∀ t ht, s'.view _ = s'.view _
    simp only [hview]
    exact h.copied q st e hst

theorem ok_quiet (h : s.Ok d) (hq : Quiet p s s') (hpanic : ∀ m, s.call p ≠ .panicked m)
    (hlog : ∀ bs b, s.log.phase p ≠ .logging bs b) : s'.Ok d := by
  have e : { s' with script := update s'.script p (s.script p) } = s' := by
    rw [← hq.script, update_eq_self]
  rw [← e]
  refine ok_quiet_script h hq hlog suffix_rfl (fun _ _ hm => hm) (fun i => h.owner i p) ?_
  intro hf st hst
  rcases h.full hf p st hst with h1 | ⟨h1, h2 | ⟨m, hm⟩⟩
  · exact .inl h1
  · exact .inr ⟨h1, .inl h2⟩
  · exact absurd hm (hpanic m)

/-! ## Steps of operations -/

theorem store_buf (data : Block) :
    (s.store i data).buf j = { s.buf j with data := if j = i then data else (s.buf j).data } := by
  by_cases hj : j = i
  · rw [hj]; simp [CacheSys.store]
  · simp [CacheSys.store, hj]

theorem store_lock (data : Block) : ((s.store i data).buf j).lock = (s.buf j).lock := by rw [store_buf]

theorem store_blockno (data : Block) : ((s.store i data).buf j).blockno = (s.buf j).blockno := by rw [store_buf]

theorem store_dirty (data : Block) : ((s.store i data).buf j).dirty = (s.buf j).dirty := by rw [store_buf]

theorem store_caches (data : Block) : (s.store i data).caches j x ↔ s.caches j x := by
  rw [CacheSys.caches, CacheSys.caches, store_buf]

/-- a change in place, by an operation -/
theorem ok_modify (h : s.Ok d) (hp : s.call p = .idle) (ha : s.log.active p) (hl : (s.buf i).lock = some p)
    (data : Block) : CacheSys.Ok d { s.store i data with given := s.given ++ [((s.buf i).blockno, data)] } := by
  have hk : ∀ q st, s.log.phase q ≠ .committing st := by
    intro q st e
    exact h.log.quiet (h.log.committer q st e) p ha
  have hview := view_store h.bufs hp hl data
  refine ⟨bufs_with (bufs_store h.bufs hp hl data) s.log s.script _, h.log, h.size, ?_, h.home, h.logging, ?_, ?_, h.outside,
    h.script, fun q e => absurd e (hk q _), fun q st e => absurd e (hk q st), fun _ q st e => absurd e (hk q st)⟩
  · intro x hx
    show (s.store i data).view x = apply (s.given ++ [((s.buf i).blockno, data)]) d x
    rw [hview, apply_append, apply_cons, apply_nil]
    by_cases hxb : x = (s.buf i).blockno
    · rw [hxb, update_self, update_self]
    · rw [update_of_ne hxb, update_of_ne hxb]
      exact h.current x hx
  · intro j q ht hlj
    have hlj : ((s.store i data).buf j).lock = some q := hlj
    show s.log.active q ∨ ∃ r, s.script q = .bwrite ((s.store i data).buf j).blockno :: r
    rw [store_lock] at hlj
    rw [store_blockno]
    by_cases hj : j = i
    · rw [hj, hl, Option.some.injEq] at hlj
      rw [← hlj]; exact .inl ha
    · have ht : update s.touched i true j = true := ht
      rw [update_of_ne hj] at ht
      exact h.owner j q ht hlj
  · intro hst b hb
    obtain ⟨j, hc, hd⟩ := h.pinned hst b hb
    exact ⟨j, (store_caches data).2 hc, (store_dirty data).trans hd⟩

/-- begin_op, end_op, log_write's tests, a wakeup -/
theorem ok_logged (h : s.Ok d) {op : LogOp} (hop : ∀ p, op ≠ .commit p) (happend : ∀ p, op ≠ .logAppend p)
    (hwrite : ∀ p b, op = .logWrite p b → s.home b ∧ s.call p = .idle)
    (hend : ∀ p, op = .endOp p → ∀ i, (s.buf i).lock = some p → s.touched i = false) : (s.logged op).Ok d := by
  obtain ⟨hsize, hlh, hstays, hcommit, hlogging, hactive⟩ := logFrame_logStep s.log hop
  have hlh := hlh happend
  have hhome : ∀ x, (s.logged op).home x ↔ s.home x := fun x => home_congr rfl hsize
  refine ⟨bufs_with h.bufs _ s.script s.given, step_group h.log op, by rw [CacheSys.logged, hsize]; exact h.size,
    fun x hx => h.current x ((hhome x).1 hx), ?_, ?_, ?_, ?_, ?_, ?_, ?_, ?_, ?_⟩
  · intro b hb
    have hb : b ∈ (logStep s.log op).lh := hb
    rw [hlh] at hb
    exact (hhome b).2 (h.home b hb)
  · intro q bs b e
    rcases hlogging q bs b e with e | e
    · exact ⟨(hhome b).2 (h.logging q bs b e).1, (h.logging q bs b e).2⟩
    · exact ⟨(hhome b).2 (hwrite q b e).1, (hwrite q b e).2⟩
  · intro j q ht hl
    rcases h.owner j q ht hl with ha | hr
    · rcases hactive q ha with ha | e
      · exact .inl ha
      · have ht : s.touched j = true := ht
        rw [hend q e j hl] at ht
        cases ht
    · exact .inr hr
  · intro hst b hb
    have hb : b ∈ (logStep s.log op).lh := hb
    rw [hlh] at hb
    exact h.pinned (fun q st e => hst q st (hstays q st e)) b hb
  · intro q hno
    exact h.outside q fun st e => hno st (hstays q st e)
  · intro q st e
    show s.script q <:+ stageActs s.start (logStep s.log op).lh st
    rw [hlh]
    rcases hcommit q st e with e | ⟨rfl, rfl⟩
    · exact h.script q st e
    · by_cases hc : ∃ st, s.log.phase q = .committing st
      · obtain ⟨st', e'⟩ := hc
        have hsame := (hstays q st' e').symm.trans e
        rw [Phase.committing.injEq] at hsame
        rw [hsame] at e'
        exact h.script q _ e'
      · rw [h.outside q fun st e => hc ⟨st, e⟩]
        exact nil_suffix
  · intro q e hlt t ht
    show _ ∈ s.script q ∨ s.view (s.start + t + 1) = s.view _
    simp only [CacheSys.logged, hlh, hsize] at hlt ht ⊢
    rcases hcommit q _ e with e | ⟨e, -⟩
    · exact h.copying q e hlt t ht
    · cases e
  · intro q st e hst
    show _ ∧ ∀ t ht, s.view (s.start + t + 1) = s.view _
    simp only [CacheSys.logged, hlh, hsize]
    rcases hcommit q st e with e | ⟨rfl, -⟩
    · exact h.copied q st e hst
    · rcases hst with hst | hst <;> cases hst
  · intro hf q st e
    show st = .test ∨ st = .writeLog ∧ (s.script q = stageActs s.start (logStep s.log op).lh st ∨ ∃ m, s.call q = .panicked m)
    simp only [CacheSys.logged, hlh, hsize] at hf ⊢
    rcases hcommit q st e with e | ⟨rfl, -⟩
    · exact h.full hf q st e
    · exact .inl rfl

/-- log_write with the lock of the log held -/
theorem ok_logAppend_buf (h : s.Ok d) {bs : List ℕ} (hp : s.log.phase p = .logging bs b) (hl : (s.buf i).lock = some p)
    (hb : (s.buf i).blockno = b) :
    CacheSys.Ok d { (s.logged (.logAppend p)).modBuf i ({ · with dirty := true }) with
      touched := update s.touched i false } := by
  obtain ⟨hhomeb, hcall⟩ := h.logging p bs b hp
  have ha : s.log.active p := by simp [LogSys.active, hp, Phase.blocks]
  have hk : ∀ q st, s.log.phase q ≠ .committing st := by
    intro q st e
    exact h.log.quiet (h.log.committer q st e) p ha
  have hq := quiet_pin h.bufs hcall hl
  set s1 : CacheSys := { s.modBuf i ({ · with dirty := true }) with touched := update s.touched i false } with hs1
  have hframe : LogFrame (.logAppend p) s.log (logStep s.log (.logAppend p)) := logFrame_logStep s.log (by simp)
  have hk' : ∀ q st, (logStep s.log (.logAppend p)).phase q ≠ .committing st := by
    intro q st e
    rcases hframe.committing q st e with e | ⟨-, e⟩
    · exact hk q st e
    · cases e
  have hlh : ∀ x, x ∈ (logStep s.log (.logAppend p)).lh ↔ x ∈ s.log.lh ∨ x = b := by
    intro x
    rw [logStep, hp]
    show x ∈ (if b ∈ s.log.lh then s.log.lh else s.log.lh ++ [b]) ↔ _
    split_ifs with hin
    · exact ⟨.inl, fun hx => hx.elim id fun e => e ▸ hin⟩
    · simp
  have hhome : ∀ x, CacheSys.home { s1 with log := logStep s.log (.logAppend p) } x ↔ s.home x := fun x =>
    home_congr rfl hframe.size
  show CacheSys.Ok d { s1 with log := logStep s.log (.logAppend p) }
  refine ⟨bufs_with hq.bufs _ s.script s.given, step_group h.log (.logAppend p), by rw [hframe.size]; exact h.size,
    ?_, ?_, ?_, ?_, ?_, ?_, fun q st e => absurd e (hk' q st), fun q e => absurd e (hk' q _), fun q st e => absurd e (hk' q st),
    fun _ q st e => absurd e (hk' q st)⟩
  · intro x hx
    exact (hq.view x).trans (h.current x ((hhome x).1 hx))
  · intro x hx
    rcases (hlh x).1 hx with hx | rfl
    · exact (hhome x).2 (h.home x hx)
    · exact (hhome x).2 hhomeb
  · intro q bs' b' e
    rcases hframe.logging q bs' b' e with e | e
    · exact ⟨(hhome b').2 (h.logging q bs' b' e).1, (h.logging q bs' b' e).2⟩
    · cases e
  · intro j q ht hlj
    obtain ⟨ht, elock, eno⟩ := hq.touched j ht
    have hlj : (s1.buf j).lock = some q := hlj
    rw [elock] at hlj
    show (logStep s.log (.logAppend p)).active q ∨ ∃ r, s.script q = .bwrite (s1.buf j).blockno :: r
    rw [eno]
    refine (h.owner j q ht hlj).imp_left fun ha => ?_
    rcases hframe.active q ha with ha | e
    · exact ha
    · cases e
  · intro _ x hx
    rcases (hlh x).1 hx with hx | rfl
    · obtain ⟨j, hc, hd⟩ := h.pinned (fun q st e => absurd e (hk q st)) x hx
      obtain ⟨hd', edev, eno⟩ := hq.pinned j hd
      exact ⟨j, ⟨edev.trans hc.1, eno.trans hc.2⟩, hd'⟩
    · have hbuf : s1.buf i = { s.buf i with dirty := true } := by simp [hs1]
      refine ⟨i, ?_, ?_⟩
      · show (s1.buf i).dev = 1 ∧ (s1.buf i).blockno = x
        rw [hbuf]; exact ⟨(h.bufs.locked i p hl).1, hb⟩
      · show (s1.buf i).dirty = true
        rw [hbuf]
  · intro q _
    exact h.outside q fun st e => hk q st e

/-! ## Steps of commit -/

theorem held_some (h : s.Bufs) (e : s.held p x = some i) : s.caches i x ∧ (s.buf i).lock = some p := by
  rw [CacheSys.held, Option.filter_eq_some_iff] at e
  exact ⟨(cached_eq_some h).1 e.1, by simpa using e.2⟩

section Acts

variable {a : LogAct} {r : List LogAct} (h : s.Ok d) (hst : s.log.phase p = .committing st) (hp : s.call p = .idle)
  (hs : s.script p = a :: r)
include h hst hp hs

/-- when the log is too full, commit is at its first bread -/
theorem full_start (hf : s.log.size ≤ s.log.lh.length) : st = .writeLog ∧ a :: r = stageActs s.start s.log.lh .writeLog := by
  rcases h.full hf p st hst with rfl | ⟨rfl, e | ⟨m, hm⟩⟩
  · have hsuf := h.script p _ hst
    rw [hs] at hsuf
    simp [stageActs] at hsuf
  · exact ⟨rfl, by rw [← hs, e]⟩
  · rw [hp] at hm; cases hm

/-- a change in place by commit -/
theorem ok_act_store {data : Block} {r' : List LogAct} (hl : (s.buf j).lock = some p) (ha : ∀ x, a ≠ .bwrite x)
    (hr : r = .bwrite (s.buf j).blockno :: r') (hlt : (s.log.lh.length : Int) < s.log.size)
    (hcur : ∀ x, s.home x → update s.view (s.buf j).blockno data x = s.view x)
    (hcopying : st = .writeLog → ∀ t (ht : t < s.log.lh.length), .copy s.log.lh[t] (s.start + t + 1) ∈ r ∨
      update s.view (s.buf j).blockno data (s.start + t + 1) =
        update s.view (s.buf j).blockno data s.log.lh[t])
    (hcopied : st = .writeHead ∨ st = .installTrans → ∀ t (ht : t < s.log.lh.length),
      update s.view (s.buf j).blockno data (s.start + t + 1) =
        update s.view (s.buf j).blockno data s.log.lh[t]) :
    CacheSys.Ok d { s.store j data with script := update s.script p r } := by
  have hview := view_store h.bufs hp hl data
  rw [← hview] at hcur hcopying hcopied
  refine ok_script h (bufs_with (bufs_store h.bufs hp hl data) s.log _ s.given) rfl rfl rfl rfl (fun _ _ => rfl)
    (by simp [hst]) (by rw [hs]; exact suffix_cons a r) hcur ?_ ?_ ?_ ?_ fun hf => absurd hlt (not_lt.2 hf)
  · intro k q ht hlk
    have ht : update s.touched j true k = true := ht
    by_cases hk : k = j
    · rw [hk] at hlk ⊢
      have hlk : ((s.store j data).buf j).lock = some q := hlk
      rw [store_lock, hl, Option.some.injEq] at hlk
      right
      refine ⟨r', ?_⟩
      show _ = LogAct.bwrite ((s.store j data).buf j).blockno :: r'
      rw [← hlk, update_self, store_blockno, hr]
    · have hnone : s.touched k = false := h.untouched hst fun r'' e => by
        rw [hs, List.cons.injEq] at e
        exact ha _ e.1
      rw [update_of_ne hk, hnone] at ht
      cases ht
  · intro hst' b hb
    obtain ⟨k, hc, hd⟩ := h.pinned hst' b hb
    exact ⟨k, (store_caches data).2 hc, (store_dirty data).trans hd⟩
  · intro q e _ t ht
    obtain ⟨rfl, hst'⟩ := h.only hst e
    rw [update_self]
    exact hcopying hst'.symm t ht
  · intro q st' e hst'
    obtain ⟨rfl, rfl⟩ := h.only hst e
    exact ⟨hlt, hcopied hst'⟩

/-- commit writes a buffer to the disk -/
theorem ok_act_bwrite (hl : (s.buf j).lock = some p) (ha : a = .bwrite (s.buf j).blockno)
    (hlt : (s.log.lh.length : Int) < s.log.size) (hnot : st ≠ .installTrans → (s.buf j).blockno ∉ s.log.lh) :
    CacheSys.Ok d { s.bwrite p j with script := update (s.bwrite p j).script p r } := by
  obtain ⟨hbufs, ht, hview⟩ := bufs_bwrite h.bufs hp hl
  have heq := bwrite_eq h.bufs hp hl
  have hnone : ∀ k, (s.bwrite p j).touched k = false := by
    intro k
    by_cases hk : k = j
    · rw [hk, heq]
      exact update_self ..
    · rw [ht.touched k hk]
      by_contra hkt
      have hkt : s.touched k = true := by simpa using hkt
      have hdev := (h.bufs.valid k (h.bufs.touched k hkt).1).1
      rw [h.untouched hst] at hkt
      · cases hkt
      · intro r'' e
        rw [hs, ha, List.cons.injEq, LogAct.bwrite.injEq] at e
        exact hk (h.bufs.unique k j _ ⟨hdev, rfl⟩ ⟨(h.bufs.locked j p hl).1, e.1⟩)
  refine ok_script h (bufs_with hbufs _ _ _) (by rw [heq]; rfl) (by rw [heq]; rfl) (by rw [heq]; rfl) (by rw [heq]; rfl)
    (fun _ _ => by rw [heq]; rfl) (by simp [hst]) (by rw [hs]; exact suffix_cons a r) (fun x _ => congrFun hview x)
    ?_ ?_ ?_ ?_ fun hf => absurd hlt (not_lt.2 hf)
  · intro k q hk
    exact absurd hk (by simp [hnone k])
  · intro hst' b hb
    have hne := hnot (hst' p st hst).1
    obtain ⟨k, hc, hd⟩ := h.pinned hst' b hb
    have hk : k ≠ j := by
      rintro rfl
      exact hne (hc.2 ▸ hb)
    refine ⟨k, (caches_iff ht hk).2 hc, ?_⟩
    show ((s.bwrite p j).buf k).dirty = true
    rw [ht.buf k hk]; exact hd
  · intro q e hlt' t ht'
    show _ ∨ (s.bwrite p j).view _ = (s.bwrite p j).view _
    obtain ⟨rfl, rfl⟩ := h.only hst e
    rw [update_self, hview]
    refine (h.copying q e hlt' t ht').imp_left fun hm => ?_
    rw [hs, ha] at hm
    simpa using hm
  · intro q st' e hst'
    show _ ∧ ∀ t ht, (s.bwrite p j).view _ = (s.bwrite p j).view _
    rw [hview]
    exact h.copied q st' e hst'

/-- with the log too full, all buffers are pinned -/
theorem full_pinned (hf : s.log.size ≤ s.log.lh.length) (i : Fin NBUF) :
    (s.buf i).dirty = true ∧ ∃ b ∈ s.log.lh, s.caches i b := by
  obtain ⟨rfl, -⟩ := full_start h hst hp hs hf
  have hpins := h.pinned fun q st' e => by
    obtain ⟨-, rfl⟩ := h.only hst e
    simp
  choose! f hc hd using hpins
  have hinj : Set.InjOn f {b | b ∈ s.log.lh} := by
    intro b hb b' hb' e
    have h1 := (hc b hb).2
    have h2 := (hc b' hb').2
    rw [e] at h1
    exact h1.symm.trans h2
  -- as many blocks as buffers
  have hcard : NBUF ≤ (s.log.lh.toFinset.image f).card := by
    have hsize := h.size
    have hn : (LOGSIZE : Int) ≤ s.log.lh.length := hsize.trans hf
    rw [Finset.card_image_of_injOn (by simpa using hinj), toFinset_card_of_nodup h.log.nodup]
    exact_mod_cast hn
  have huniv : s.log.lh.toFinset.image f = Finset.univ := by
    refine Finset.eq_univ_of_card _ (le_antisymm (Finset.card_le_univ _) ?_)
    rwa [Fintype.card_fin]
  have hi : i ∈ s.log.lh.toFinset.image f := by rw [huniv]; exact Finset.mem_univ i
  obtain ⟨b, hb, rfl⟩ := Finset.mem_image.1 hi
  have hb : b ∈ s.log.lh := mem_toFinset.1 hb
  exact ⟨hd b hb, b, hb, hc b hb⟩

/-- so that commit's first bread finds no buffer -/
theorem full_panics (hf : s.log.size ≤ s.log.lh.length) (ha : a = .bread x) :
    (s.bget p x).call p = .panicked "bget: no buffers" := by
  have hpins := full_pinned h hst hp hs hf
  obtain ⟨-, e⟩ := full_start h hst hp hs hf
  have hsize := h.size
  have hlog := LOGSIZE_eq
  -- the block is the first log block
  have hx : x = s.start + 1 := by
    cases hlh : s.log.lh with
    | nil =>
      rw [hlh] at hf
      simp at hf
      omega
    | cons b lh =>
      rw [hlh] at e
      simp only [stageActs, writeLogActs, cons_append, List.cons.injEq] at e
      rw [ha] at e
      simpa using e.1
  have hnone : s.cached x = none := by
    refine (cached_eq_none h.bufs).2 fun i hc => ?_
    obtain ⟨-, b, hb, hcb⟩ := hpins i
    have hbx : b = s.start + 1 := by rw [← hx, ← hc.2, hcb.2]
    refine log_block_not_home (s := s) (t := 1) (by omega) ?_
    rw [← hbx]; exact h.home b hb
  have hunused : s.unused = none := by
    refine find?_eq_none.2 fun i _ => ?_
    simp [(hpins i).1]
  rw [CacheSys.bget, hnone, hunused]
  exact setCall_self

/-- bread and brelse by commit -/
theorem ok_act_quiet (hq : Quiet p s s') (ha : (∃ x, a = .bread x ∧ s' = s.bget p x) ∨ ∃ x, a = .brelse x) :
    CacheSys.Ok d { s' with script := update s'.script p r } := by
  have hnot : ∀ x y, a ≠ .copy x y := by rcases ha with ⟨x, rfl, -⟩ | ⟨x, rfl⟩ <;> simp
  have hnot' : ∀ x, a ≠ .bwrite x := by rcases ha with ⟨x, rfl, -⟩ | ⟨x, rfl⟩ <;> simp
  refine ok_quiet_script h hq (by simp [hst]) (by rw [hs]; exact suffix_cons a r) ?_ ?_ ?_
  · intro x y hm
    rw [hs] at hm
    rcases mem_cons.1 hm with e | hm
    · exact absurd e.symm (hnot x y)
    · exact hm
  · intro i ht
    rw [h.untouched hst] at ht
    · cases ht
    · intro r' e
      rw [hs, List.cons.injEq] at e
      exact hnot' _ e.1
  · intro hf st' e
    rw [hst, Phase.committing.injEq] at e
    obtain ⟨hw, hfull⟩ := full_start h hst hp hs hf
    refine .inr ⟨e ▸ hw, .inr ?_⟩
    rcases ha with ⟨x, rfl, rfl⟩ | ⟨x, rfl⟩
    · exact ⟨_, full_panics h hst hp hs hf rfl⟩
    · cases hlh : s.log.lh with
      | nil | cons b lh => simp [hlh, stageActs, writeLogActs] at hfull

theorem not_full (ha : ∀ x, a ≠ .bread x) : (s.log.lh.length : Int) < s.log.size := by
  by_contra hf
  obtain ⟨-, e⟩ := full_start h hst hp hs (not_lt.1 hf)
  cases hlh : s.log.lh with
  | nil => simp [hlh, stageActs, writeLogActs] at e
  | cons b lh =>
    simp only [hlh, stageActs, writeLogActs, cons_append, List.cons.injEq] at e
    exact ha _ e.1

/-- write_log and install_trans copy a block -/
theorem ok_act_copy {src dst : ℕ} (ha : a = .copy src dst) (hi : s.held p src = some i) (hj : s.held p dst = some j) :
    CacheSys.Ok d { s.store j (s.buf i).data with script := update (s.store j (s.buf i).data).script p r } := by
  obtain ⟨hci, hli⟩ := held_some h.bufs hi
  obtain ⟨hcj, hlj⟩ := held_some h.bufs hj
  have hdata : (s.buf i).data = s.view src := (view_of_valid h.bufs hci (held_valid h.bufs hp hli).1).symm
  have hlt := not_full h hst hp hs (by simp [ha])
  have hsuf := h.script p st hst
  rw [hs] at hsuf
  have hnext := stage_next hsuf
  simp only [ha, reduceCtorEq, or_self, exists_const, false_or, LogAct.copy.injEq, false_and, and_false, or_false] at hnext
  rcases hnext with ⟨t, ht, rfl, ⟨rfl, rfl⟩, r', hr⟩ | ⟨t, ht, rfl, ⟨rfl, rfl⟩, r', hr⟩
  · -- a logged block to its log block
    have hlog : ∀ u, u < s.log.lh.length → ¬ s.home (s.start + u + 1) := fun u hu => by
      rw [Nat.add_assoc]
      exact log_block_not_home (by push_cast; omega)
    have hhome : ∀ u (hu : u < s.log.lh.length), s.log.lh[u] ≠ s.start + t + 1 := fun u hu e =>
      hlog t ht (e ▸ h.home _ (getElem_mem hu))
    refine ok_act_store h hst hp hs hlj (by simp [ha]) (by rw [hr, hcj.2]) hlt ?_ ?_ (by simp)
    · intro x hx
      refine update_of_ne ?_ ..
      rintro rfl
      rw [hcj.2] at hx
      exact hlog t ht hx
    · intro _ u hu
      rw [hcj.2, update_of_ne (hhome u hu)]
      by_cases hut : u = t
      · subst hut
        right
        rw [update_self, hdata]
      · have hne : s.start + u + 1 ≠ s.start + t + 1 := by omega
        rw [update_of_ne hne]
        refine (h.copying p hst hlt u hu).imp_left fun hm => ?_
        rw [hs, ha] at hm
        rcases mem_cons.1 hm with e | hm
        · rw [LogAct.copy.injEq] at e
          exact absurd e.2 hne
        · exact hm
  · -- a log block to the logged block, which has that content already
    obtain ⟨-, hcopied⟩ := h.copied p _ hst (.inr rfl)
    have hsame : update s.view (s.buf j).blockno (s.buf i).data = s.view := by
      rw [hcj.2, hdata, hcopied t ht, update_eq_self]
    refine ok_act_store h hst hp hs hlj (by simp [ha]) (by rw [hr, hcj.2]) hlt ?_ (by simp) ?_
    · intro x _
      rw [hsame]
    · intro _ u hu
      rw [hsame]; exact hcopied u hu

/-- write_head fills the header -/
theorem ok_act_head {lh : List ℕ} (ha : a = .head lh) (hj : s.held p s.start = some j) (data : Block) :
    CacheSys.Ok d { s.store j data with script := update (s.store j data).script p r } := by
  obtain ⟨hcj, hlj⟩ := held_some h.bufs hj
  have hlt := not_full h hst hp hs (by simp [ha])
  have hsize := h.size
  have hlog := LOGSIZE_eq
  have hstart : ¬ s.home s.start := log_block_not_home (s := s) (t := 0) (by push_cast; omega)
  have hsuf := h.script p st hst
  rw [hs] at hsuf
  have hnext := stage_next hsuf
  simp only [ha, reduceCtorEq, or_self, exists_const, false_or, false_and, and_false, exists_false] at hnext
  obtain ⟨hwe, -, r', hr⟩ := hnext
  refine ok_act_store h hst hp hs hlj (by simp [ha]) (by rw [hr, hcj.2]) hlt ?_ ?_ ?_
  · intro x hx
    refine update_of_ne ?_ ..
    rintro rfl
    rw [hcj.2] at hx
    exact hstart hx
  · intro e
    rcases hwe with rfl | rfl <;> cases e
  · intro hst' u hu
    have hne : s.log.lh[u] ≠ s.start := fun e => hstart (e ▸ h.home _ (getElem_mem hu))
    have hne' : s.start + u + 1 ≠ s.start := by omega
    rw [hcj.2, update_of_ne hne, update_of_ne hne']
    exact (h.copied p st hst hst').2 u hu

theorem ok_act (hact : s.act p a = some s') : CacheSys.Ok d { s' with script := update s'.script p r } := by
  have hsuf := h.script p st hst
  rw [hs] at hsuf
  cases ha : a <;> rw [ha] at hact <;>
    simp only [CacheSys.act, Option.bind_eq_bind, Option.bind_eq_some_iff, Option.pure_def, Option.some.injEq] at hact
  case bread x =>
    subst hact
    exact ok_act_quiet h hst hp hs (quiet_bget h.bufs hp x) (.inl ⟨x, ha, rfl⟩)
  case brelse x =>
    obtain ⟨i, hi, rfl⟩ := hact
    have hnt : s.touched i = false := h.untouched hst fun r' e => by
      rw [hs, ha, List.cons.injEq] at e
      cases e.1
    exact ok_act_quiet h hst hp hs (quiet_brelse h.bufs hp hnt) (.inr ⟨x, ha⟩)
  case copy src dst =>
    obtain ⟨i, hi, j, hj, rfl⟩ := hact
    exact ok_act_copy h hst hp hs ha hi hj
  case head lh =>
    obtain ⟨j, hj, rfl⟩ := hact
    exact ok_act_head h hst hp hs ha hj _
  case bwrite x =>
    obtain ⟨j, hj, rfl⟩ := hact
    obtain ⟨hcj, hlj⟩ := held_some h.bufs hj
    have hlt := not_full h hst hp hs (by simp [ha])
    have hsize := h.size
    have hlog := LOGSIZE_eq
    refine ok_act_bwrite h hst hp hs hlj (by rw [ha, hcj.2]) hlt fun hni hmem => ?_
    -- what is written before install_trans lies in the log area
    have hhome := h.home _ hmem
    rw [hcj.2] at hhome
    have hnext := stage_next hsuf
    simp only [ha, reduceCtorEq, or_self, exists_const, false_or, LogAct.bwrite.injEq, false_and, or_false] at hnext
    rcases hnext with ⟨t, ht, -, e⟩ | ⟨t, ht, e, -⟩ | ⟨-, e⟩
    · rw [e, Nat.add_assoc] at hhome
      exact log_block_not_home (by push_cast; omega) hhome
    · exact hni e
    · rw [e] at hhome
      exact log_block_not_home (s := s) (t := 0) (by push_cast; omega) hhome

end Acts

/-- a log that fits, once write_log is through -/
theorem copied_all (h : s.Ok d) (hst : s.log.phase p = .committing .writeLog) (hp : s.call p = .idle) (hs : s.script p = []) :
    (s.log.lh.length : Int) < s.log.size ∧
      ∀ t (ht : t < s.log.lh.length), s.view (s.start + t + 1) = s.view s.log.lh[t] := by
  have hsize := h.size
  have hlog := LOGSIZE_eq
  have hlt : (s.log.lh.length : Int) < s.log.size := by
    by_contra hf
    rcases h.full (not_lt.1 hf) p _ hst with e | ⟨-, e | ⟨m, hm⟩⟩
    · cases e
    · rw [hs] at e
      cases hlh : s.log.lh with
      | nil =>
        rw [hlh] at hf
        simp at hf
        omega
      | cons b lh => simp [hlh, stageActs, writeLogActs] at e
    · rw [hp] at hm; cases hm
  refine ⟨hlt, fun t ht => ?_⟩
  rcases h.copying p hst hlt t ht with hm | e
  · rw [hs] at hm; cases hm
  · exact e

theorem acts_eq (hp : s.log.phase p = .committing st) : s.acts p = stageActs s.start s.log.lh st := by
  rw [CacheSys.acts, hp]

/-- commit goes on to its next stage -/
theorem ok_next (h : s.Ok d) (hst : s.log.phase p = .committing st) (hp : s.call p = .idle) (hs : s.script p = []) :
    (s.commit p).Ok d := by
  obtain ⟨ho, hsize, hlh, hphase⟩ := logStep_commit hst
  set l := logStep s.log (.commit p) with hl
  have heq : s.commit p = { s with log := l, script := update s.script p (CacheSys.acts { s with log := l } p) } := by
    rw [CacheSys.commit, hs]
    rfl
  have hnone : ∀ i, s.touched i = false := fun i => h.untouched hst fun r e => by rw [hs] at e; cases e
  have honly : ∀ q st', l.phase q = .committing st' → q = p ∧ st.next s.log = some st' := by
    intro q st' e
    by_cases hq : q = p
    · rw [hq, hphase] at e
      refine ⟨hq, ?_⟩
      cases hn : st.next s.log with
      | none => rw [hn] at e; cases e
      | some t =>
        rw [hn, Option.elim_some, Phase.committing.injEq] at e
        rw [e]
    · exact absurd (h.log.only q p st' st (others_committing ho hq e) hst) hq
  have hkeep : st ≠ .clear → l.lh = s.log.lh := fun hne => by rw [hlh, if_neg hne]
  rw [heq]
  set s' : CacheSys := { s with log := l, script := update s.script p (CacheSys.acts { s with log := l } p) } with hs'
  have hhome : ∀ x, s'.home x ↔ s.home x := fun x => home_congr rfl hsize
  refine ⟨bufs_with h.bufs l _ s.given, step_group h.log (.commit p), by rw [hsize]; exact h.size,
    fun x hx => h.current x ((hhome x).1 hx), ?_, ?_, ?_, ?_, ?_, ?_, ?_, ?_, ?_⟩
  · intro b hb
    have hb : b ∈ l.lh := hb
    rw [hlh] at hb
    split_ifs at hb
    · cases hb
    · exact (hhome b).2 (h.home b hb)
  · intro q bs b e
    have hq : q ≠ p := by
      rintro rfl
      have e : l.phase q = .logging bs b := e
      rw [hphase] at e
      cases hn : st.next s.log with
      | none | some t => rw [hn] at e; cases e
    rcases ho q hq with e' | ⟨-, e'⟩
    · have e : s.log.phase q = .logging bs b := e' ▸ e
      exact ⟨(hhome b).2 (h.logging q bs b e).1, (h.logging q bs b e).2⟩
    · exact absurd (e'.symm.trans e) (by simp)
  · intro i q ht
    exact absurd ((hnone i).symm.trans ht) (by simp)
  · intro hst' b hb
    have hb : b ∈ l.lh := hb
    rw [hlh] at hb
    split_ifs at hb with hc
    · cases hb
    · -- the next stage tells that this one comes before install_trans
      have hni : st ≠ .installTrans := by
        rintro rfl
        exact (hst' p .clear hphase).2 rfl
      refine h.pinned (fun q st'' e => ?_) b hb
      rw [(h.only hst e).2]; exact ⟨hni, hc⟩
  · intro q hno
    by_cases hq : q = p
    · show update s.script p (CacheSys.acts { s with log := l } p) q = []
      rw [hq, update_self, CacheSys.acts]
      split
      · rename_i e
        exact absurd e (hq ▸ hno _)
      · rfl
    · refine (update_of_ne hq ..).trans (h.outside q fun st' e => ?_)
      exact hno st' (committing_others ho hq e)
  · intro q st' e
    obtain ⟨rfl, -⟩ := honly q st' e
    show update s.script q (CacheSys.acts { s with log := l } q) q <:+ _
    rw [update_self, acts_eq (s := { s with log := l }) e]
  · intro q e _ t ht
    obtain ⟨rfl, -⟩ := honly q _ e
    left
    show _ ∈ update s.script q (CacheSys.acts { s with log := l } q) q
    have ht : t < l.lh.length := ht
    have hm : .copy l.lh[t] (s.start + (0 + t) + 1) ∈ writeLogActs s.start l.lh 0 := copy_mem ht
    rw [Nat.zero_add] at hm
    rw [update_self, acts_eq (s := { s with log := l }) e]
    exact hm
  · intro q st' e hst'
    obtain ⟨rfl, hn⟩ := honly q st' e
    have hall : (s.log.lh.length : Int) < s.log.size ∧
        ∀ t (ht : t < s.log.lh.length), s.view (s.start + t + 1) = s.view s.log.lh[t] := by
      cases st with
      | writeLog => exact copied_all h hst hp hs
      | writeHead => exact h.copied q _ hst (.inl rfl)
      | test =>
        simp only [Stage.next] at hn
        split_ifs at hn <;> rcases hst' with rfl | rfl <;> cases hn
      | installTrans | clear | eraseHead | finish => rcases hst' with rfl | rfl <;> cases hn
    have hne : st ≠ .clear := by
      rintro rfl
      rcases hst' with rfl | rfl <;> cases hn
    show (l.lh.length : Int) < l.size ∧ ∀ t (ht : t < l.lh.length), s.view (s.start + t + 1) = s.view l.lh[t]
    simp only [hsize, hkeep hne]
    exact hall
  · intro hf q st' e
    have hf : l.size ≤ l.lh.length := hf
    have hsz := h.size
    have hlog := LOGSIZE_eq
    obtain ⟨rfl, hn⟩ := honly q st' e
    have hne : st ≠ .clear := by
      rintro rfl
      rw [hlh, if_pos rfl, hsize] at hf
      simp at hf
      omega
    rw [hsize, hkeep hne] at hf
    rcases h.full hf q st hst with rfl | ⟨rfl, -⟩
    · simp only [Stage.next] at hn
      split_ifs at hn with h0
      · rw [Option.some.injEq] at hn
        refine .inr ⟨hn.symm, .inl ?_⟩
        show update s.script q (CacheSys.acts { s with log := l } q) q = _
        rw [update_self, acts_eq (s := { s with log := l }) e]
      · omega
    · exact absurd (copied_all h hst hp hs).1 (not_lt.2 hf)

/-! ## Any step -/

theorem free_idle (h : s.free p = true) : s.call p = .idle ∧ (s.log.phase p = .idle ∨ ∃ bs, s.log.phase p = .inOp bs) := by
  simp only [CacheSys.free, Bool.and_eq_true, decide_eq_true_eq] at h
  refine ⟨h.1, ?_⟩
  have h2 := h.2
  split at h2
  · exact .inl ‹_›
  · exact .inr ⟨_, ‹_›⟩
  · cases h2

theorem step_cache (h : s.Ok d) (op : CacheOp) : (cacheStep s op).Ok d := by
  cases op with
  | bread p x =>
    rw [cacheStep]
    split_ifs with hf
    · obtain ⟨hp, hph⟩ := free_idle hf
      exact ok_quiet h (quiet_bget h.bufs hp x) (by simp [hp]) (by rcases hph with e | ⟨bs, e⟩ <;> simp [e])
    · exact h
  | lock p =>
    rw [cacheStep]
    split
    · rename_i i x hp
      refine ok_quiet h (quiet_breadLocked h.bufs hp) (by simp [hp]) fun bs b e => ?_
      rw [(h.logging p bs b e).2] at hp
      cases hp
    · exact h
  | brelse p i =>
    rw [cacheStep]
    split_ifs with hf
    · obtain ⟨hp, hph⟩ := free_idle hf.1
      exact ok_quiet h (quiet_brelse h.bufs hp hf.2) (by simp [hp]) (by rcases hph with e | ⟨bs, e⟩ <;> simp [e])
    · exact h
  | drop p =>
    rw [cacheStep]
    split
    · rename_i i hp
      refine ok_quiet h (quiet_drop h.bufs hp) (by simp [hp]) fun bs b e => ?_
      rw [(h.logging p bs b e).2] at hp
      cases hp
    · exact h
  | modify p i data =>
    rw [cacheStep]
    split_ifs with hf
    · obtain ⟨hp, hph⟩ := free_idle hf.1
      have ha : s.log.active p := by
        rcases hph with e | ⟨bs, e⟩
        · exact absurd e hf.2.1
        · simp [LogSys.active, e]
      exact ok_modify h hp ha hf.2.2.1 data
    · exact h
  | logWrite p i =>
    rw [cacheStep]
    split_ifs with hf
    · refine ok_logged h (by simp) (by simp) ?_ (by simp)
      rintro _ _ ⟨⟩
      exact ⟨hf.2.2, (free_idle hf.1).1⟩
    · exact h
  | logAppend p i =>
    rw [cacheStep]
    split
    · rename_i bs b hp
      split_ifs with hf
      · exact ok_logAppend_buf h hp hf.1 hf.2
      · exact h
    · exact h
  | beginOp p =>
    rw [cacheStep]
    split_ifs
    · exact ok_logged h (by simp) (by simp) (by simp) (by simp)
    · exact h
  | wake p => exact ok_logged h (by simp) (by simp) (by simp) (by simp)
  | endOp p =>
    rw [cacheStep]
    split_ifs with hf
    · refine ok_logged h (by simp) (by simp) (by simp) ?_
      rintro _ ⟨⟩
      exact hf.2
    · exact h
  | commit p =>
    rw [cacheStep]
    split
    · rename_i st hst
      split_ifs with hp
      · cases hs : s.script p with
        | nil => exact ok_next h hst hp hs
        | cons a r =>
          rw [CacheSys.commit, hs]
          simp only
          cases ha : s.act p a with
          | some s' => exact ok_act h hst hp hs ha
          | none => exact h
      · exact h
    · exact h

/-! ## Dirty buffers are not reused -/

theorem brelse_caches : (s.brelse p j).caches i x ↔ s.caches i x := by
  rw [CacheSys.brelse]
  split_ifs
  · rfl
  · by_cases hi : i = j
    · rw [hi]; simp [CacheSys.caches]
    · simp [CacheSys.caches, hi]

theorem bget_caches (h : s.Bufs) (hp : s.call p = .idle) (y : ℕ) (hd : (s.buf i).dirty = true) (hc : s.caches i x) :
    (s.bget p y).caches i x := by
  obtain ⟨-, edev, eno⟩ := (quiet_bget h hp y).pinned i hd
  exact ⟨edev.trans hc.1, eno.trans hc.2⟩

theorem act_caches {a : LogAct} (h : s.Bufs) (hp : s.call p = .idle) (hact : s.act p a = some s')
    (hd : (s.buf i).dirty = true) (hc : s.caches i x) : s'.caches i x := by
  cases a <;> simp only [CacheSys.act, Option.bind_eq_bind, Option.bind_eq_some_iff, Option.pure_def, Option.some.injEq] at hact
  case bread y =>
    subst hact
    exact bget_caches h hp y hd hc
  case brelse y =>
    obtain ⟨j, hj, rfl⟩ := hact
    exact brelse_caches.2 hc
  case copy src dst =>
    obtain ⟨k, -, j, -, rfl⟩ := hact
    exact (store_caches _).2 hc
  case head lh =>
    obtain ⟨j, -, rfl⟩ := hact
    exact (store_caches _).2 hc
  case bwrite y =>
    obtain ⟨j, hj, rfl⟩ := hact
    obtain ⟨-, hlj⟩ := held_some h hj
    rw [bwrite_eq h hp hlj]
    by_cases hi : i = j
    · rw [hi] at hc ⊢
      simpa [CacheSys.caches] using hc
    · simpa [CacheSys.caches, hi] using hc

/-- **No reuse.** -/
theorem step_caches (h : s.Bufs) (hd : (s.buf i).dirty = true) (hc : s.caches i x) (op : CacheOp) :
    (cacheStep s op).caches i x := by
  cases op with
  | bread p y =>
    rw [cacheStep]
    split_ifs with hf
    · exact bget_caches h (free_idle hf).1 y hd hc
    · exact hc
  | lock p =>
    rw [cacheStep]
    split
    · rename_i j y hp
      obtain ⟨-, edev, eno⟩ := (quiet_breadLocked h hp).pinned i hd
      exact ⟨edev.trans hc.1, eno.trans hc.2⟩
    · exact hc
  | brelse p j =>
    rw [cacheStep]
    split_ifs
    · exact brelse_caches.2 hc
    · exact hc
  | drop p =>
    rw [cacheStep]
    split
    · rename_i j hp
      obtain ⟨-, edev, eno⟩ := (quiet_drop h hp).pinned i hd
      exact ⟨edev.trans hc.1, eno.trans hc.2⟩
    · exact hc
  | modify p j data =>
    rw [cacheStep]
    split_ifs
    · exact (store_caches data).2 hc
    · exact hc
  | logWrite p j =>
    rw [cacheStep]
    split_ifs <;> exact hc
  | logAppend p j =>
    rw [cacheStep]
    split
    · split_ifs
      · by_cases hi : i = j
        · rw [hi] at hc ⊢
          simpa [CacheSys.caches, CacheSys.logged] using hc
        · simpa [CacheSys.caches, CacheSys.logged, hi] using hc
      · exact hc
    · exact hc
  | beginOp p =>
    rw [cacheStep]
    split_ifs <;> exact hc
  | wake p => exact hc
  | endOp p =>
    rw [cacheStep]
    split_ifs <;> exact hc
  | commit p =>
    rw [cacheStep]
    split
    · split_ifs with hp
      · rw [CacheSys.commit]
        split
        · exact hc
        · split
          · rename_i s' hact
            have hc' : s'.caches i x := act_caches h hp hact hd hc
            exact hc'
          · exact hc
      · exact hc
    · exact hc

/-! ## Runs -/

theorem ok_boot_cache (start : ℕ) {size : Int} (disksize : ℕ) (d : Disk) (hsize : (LOGSIZE : Int) ≤ size) :
    (CacheSys.boot start size disksize d).Ok d := by
  have hbufs : (CacheSys.boot start size disksize d).Bufs := by
    refine ⟨fun i => ?_, ?_, fun i => ⟨∅, by simp [CacheSys.boot], by simp [CacheSys.boot, Buffer.locks]⟩, ?_, ?_, ?_, ?_, ?_, ?_⟩
    · simp [CacheSys.boot]
    all_goals simp [CacheSys.boot, CacheSys.caches]
  refine ⟨hbufs, ok_boot size, hsize, fun x _ => ?_, ?_, ?_, ?_, ?_, ?_, ?_, ?_, ?_, ?_⟩
  · exact view_of_invalid hbufs fun i _ => rfl
  all_goals simp [CacheSys.boot, LogSys.boot]

theorem cache_run (start : ℕ) {size : Int} (disksize : ℕ) (d : Disk) (hsize : (LOGSIZE : Int) ≤ size) (ops : List CacheOp) :
    (cacheRun (CacheSys.boot start size disksize d) ops).Ok d := by
  have hsteps : Along cacheStep (fun _ _ => True) (CacheSys.boot start size disksize d) ops := along_of_mem (fun _ _ _ => trivial) _
  exact along_inv (P := CacheSys.Ok d) (fun _ op _ h => step_cache h op) hsteps (ok_boot_cache start disksize d hsize)

/-- **The buffer cache is transparent.** In every state of every run, on a log area of at least LOGSIZE blocks: a bread that
returns gives the locked buffer of its block, and a block outside the log area has the content that an operation gave it last,
or its first one. No two buffers are of one block of the disk. A block that is logged and whose commit has not come to
install_trans has a dirty buffer, and a dirty buffer stays the buffer of its block whatever step comes next. -/
theorem cache_transparent (start : ℕ) (size : Int) (disksize : ℕ) (d : Disk) (ops : List CacheOp)
    (hsize : (LOGSIZE : Int) ≤ size) :
    let s := cacheRun (CacheSys.boot start size disksize d) ops
    (∀ p i x, s.call p = .waits i x → (cacheStep s (.lock p)).call p = .idle →
      ((cacheStep s (.lock p)).buf i).lock = some p ∧ (cacheStep s (.lock p)).caches i x ∧
      (s.home x → ((cacheStep s (.lock p)).buf i).data = apply s.given d x)) ∧
    (∀ i j x, s.caches i x → s.caches j x → i = j) ∧
    ((∀ p st, s.log.phase p = .committing st → st ≠ .installTrans ∧ st ≠ .clear) →
      ∀ b ∈ s.log.lh, ∃ i, s.caches i b ∧ (s.buf i).dirty = true) ∧
    (∀ i x, s.caches i x → (s.buf i).dirty = true → ∀ op, (cacheStep s op).caches i x) := by
  intro s
  have h : s.Ok d := cache_run start disksize d hsize ops
  refine ⟨?_, h.bufs.unique, h.pinned, fun i x hc hd op => step_caches h.bufs hd hc op⟩
  intro p i x hp hr
  have e : cacheStep s (.lock p) = s.breadLocked p i := by rw [cacheStep, hp]
  rw [e] at hr ⊢
  obtain ⟨hl, hc, hdata⟩ := bread_returns h.bufs hp hr
  exact ⟨hl, hc, fun hx => hdata.trans (h.current x hx)⟩

/-- process 0 gives block 40 new content, logs it, ends its operation and commits; process 1 begins to read the block -/
def rereadRun : List CacheOp :=
  [.beginOp 0, .bread 0 40, .lock 0, .modify 0 0 fun _ => 1, .logWrite 0 0, .logAppend 0 0, .brelse 0 0, .drop 0, .endOp 0] ++
    (List.range 30).flatMap (fun _ => [.commit 0, .lock 0, .drop 0]) ++ [.bread 1 40]

theorem cache_transparent_rereadRun :
    let s := cacheRun (CacheSys.boot 2 30 1000 fun _ _ => 0) rereadRun
    s.log.phase 0 = .idle ∧ s.disk 40 0 = 1 ∧ ((cacheStep s (.lock 1)).buf 0).data 0 = 1 := by
  intro s
  have h := cache_transparent 2 30 1000 (fun _ _ => 0) rereadRun (by decide)
  refine ⟨by decide +kernel, by decide +kernel, ?_⟩
  rw [(h.1 1 0 40 (by decide +kernel) (by decide +kernel)).2.2 (by decide +kernel)]
  decide +kernel

end Xv6.Fs
