/-
Crashes during commit and recovery.

A crash keeps a prefix of the writes to the disk and loses the cache. Recovery then starts from the disk alone, and can be cut
off in the same way.

- `Settled e d`: the header is empty, and outside the log area the disk is e.
- `Committed lh v d`: the header names the blocks lh, the log blocks hold their contents in v, and the rest of the disk
  outside the log area is v.

Results:
- `settled_crash`, `committed_crash`: a recovery that is cut off leaves the disk so, or finishes the transaction;
- `commit_crash`: so does a commit, from the moment its header is on the disk;
- `crash_atomicity`: all of the transaction or none of it, after any crash and any number of crashes during recovery.
-/
import Xv6.Fs.Log

namespace Xv6.Fs

open Bytes Writes Function List

variable {start size : ℕ} {d e v w : Disk} {lh : List ℕ} {b : Block} {i j k tail : ℕ}

/-! ## The header -/

theorem headN_putBlocks (b : Block) (xs : List ℕ) (i : ℕ) : headN (putBlocks b xs i) = headN b := by
  induction xs generalizing b i with
  | nil => rfl
  | cons x xs ih =>
    rw [putBlocks, ih, headN, headN, word_putWord_disjoint (.inl (by omega))]

theorem headN_putHead (b : Block) (h : lh.length ≤ LOGSIZE) : headN (putHead b lh) = lh.length := by
  have hl := LOGSIZE_eq
  have hw : word 4 (putWord 4 b 0 lh.length) 0 = lh.length := word_putWord (by norm_num) (by omega)
  rw [putHead, headN_putBlocks, headN, hw]
  exact int32_eq (by omega) (by omega)

theorem headBlock_putBlocks_before (xs : List ℕ) (h : j < i) : headBlock (putBlocks b xs i) j = headBlock b j := by
  induction xs generalizing b i with
  | nil => rfl
  | cons x xs ih =>
    rw [putBlocks, ih (by omega), headBlock, headBlock, word_putWord_disjoint (.inl (by omega))]

theorem headBlock_putBlocks (xs : List ℕ) (hx : ∀ x ∈ xs, x < 2 ^ 32) (hfit : i + xs.length ≤ LOGSIZE) (h : j < xs.length) :
    headBlock (putBlocks b xs i) (i + j) = xs[j] := by
  induction xs generalizing b i j with
  | nil => simp at h
  | cons x xs ih =>
    rw [length_cons] at hfit h
    rw [putBlocks]
    cases j with
    | zero =>
      rw [Nat.add_zero, headBlock_putBlocks_before xs (by omega), headBlock]
      have hl := LOGSIZE_eq
      have hb := BSIZE_eq
      exact word_putWord (by omega) (hx x mem_cons_self)
    | succ j =>
      rw [← Nat.add_assoc, Nat.add_right_comm]
      have e := ih (b := putWord 4 b (4 + 4 * i) x) (i := i + 1) (fun y hy => hx y (mem_cons_of_mem x hy)) (by omega)
        (j := j) (by omega)
      simpa using e

theorem headBlocks_putHead (b : Block) (h : lh.length ≤ LOGSIZE) (hx : ∀ x ∈ lh, x < 2 ^ 32) :
    headBlocks (putHead b lh) = lh := by
  rw [headBlocks, headN_putHead b h, Int.toNat_natCast]
  refine ext_getElem (by simp) fun j h1 h2 => ?_
  have e := headBlock_putBlocks (b := putWord 4 b 0 lh.length) (i := 0) lh hx (by omega) h2
  rw [Nat.zero_add] at e
  simpa [putHead] using e

/-! ## The writes of the code -/

/-- block x lies outside the log area -/
def Home (start size x : ℕ) : Prop := x < start ∨ start + size ≤ x

/-- what install_trans writes -/
def installs (start : ℕ) (v : Disk) : List ℕ → ℕ → List (ℕ × Block)
  | [], _ => []
  | b :: lh, tail => (b, v (start + tail + 1)) :: installs start v lh (tail + 1)

/-- what write_log writes -/
def copies (start : ℕ) (v : Disk) : List ℕ → ℕ → List (ℕ × Block)
  | [], _ => []
  | b :: lh, tail => (start + tail + 1, v b) :: copies start v lh (tail + 1)

theorem installs_congr (h : ∀ t, tail ≤ t → t < tail + lh.length → v (start + t + 1) = w (start + t + 1)) :
    installs start v lh tail = installs start w lh tail := by
  induction lh generalizing tail with
  | nil => rfl
  | cons b lh ih =>
    rw [length_cons] at h
    rw [installs, installs, h tail le_rfl (by omega), ih fun t h1 h2 => h t (by omega) (by omega)]

theorem copies_congr (h : ∀ b ∈ lh, v b = w b) : copies start v lh tail = copies start w lh tail := by
  induction lh generalizing tail with
  | nil => rfl
  | cons b lh ih =>
    rw [copies, copies, h b mem_cons_self, ih fun c hc => h c (mem_cons_of_mem b hc)]

theorem emits_installTrans (hb : ∀ b ∈ lh, Home start size b) (hfit : tail + lh.length + 1 ≤ size) :
    Emits (installTrans start lh tail) v (installs start v lh tail) := by
  induction lh generalizing v tail with
  | nil => exact emits_pure v
  | cons b lh ih =>
    rw [length_cons] at hfit
    have hhome := hb b mem_cons_self
    -- the write home leaves the log blocks
    have e : installs start v lh (tail + 1) = installs start (update v b (v (start + tail + 1))) lh (tail + 1) := by
      refine installs_congr fun t _ ht => ?_
      rw [update_of_ne]
      rcases hhome with h | h <;> omega
    refine emits_bread (emits_bread (emits_seq (emits_bwrite b _ v) ?_))
    rw [e]
    exact ih (fun c hc => hb c (mem_cons_of_mem b hc)) (by omega)

theorem emits_writeLog (hb : ∀ b ∈ lh, Home start size b) (hfit : tail + lh.length + 1 ≤ size) :
    Emits (writeLog start lh tail) v (copies start v lh tail) := by
  induction lh generalizing v tail with
  | nil => exact emits_pure v
  | cons b lh ih =>
    rw [length_cons] at hfit
    -- the write to the log leaves the home blocks
    have e : copies start v lh (tail + 1) = copies start (update v (start + tail + 1) (v b)) lh (tail + 1) := by
      refine copies_congr fun c hc => ?_
      rw [update_of_ne]
      rcases hb c (mem_cons_of_mem b hc) with h | h <;> omega
    refine emits_bread (emits_bread (emits_seq (emits_bwrite _ _ v) ?_))
    rw [e]
    exact ih (fun c hc => hb c (mem_cons_of_mem b hc)) (by omega)

theorem emits_writeHead (start : ℕ) (lh : List ℕ) (v : Disk) :
    Emits (writeHead start lh) v [(start, putHead (v start) lh)] :=
  emits_bread (emits_bwrite start _ v)

/-! ## What is on the disk -/

/-- a set of blocks that can be logged -/
structure Loggable (start size : ℕ) (lh : List ℕ) : Prop where
  nodup : lh.Nodup
  fits : lh.length + 1 ≤ size
  capacity : lh.length ≤ LOGSIZE
  home : ∀ b ∈ lh, Home start size b
  word : ∀ b ∈ lh, b < 2 ^ 32

structure Settled (start size : ℕ) (e d : Disk) : Prop where
  head : headN (d start) = 0
  home : ∀ x, Home start size x → d x = e x

structure Committed (start size : ℕ) (lh : List ℕ) (v d : Disk) : Prop where
  head : headBlocks (d start) = lh
  log : ∀ t (h : t < lh.length), d (start + t + 1) = v lh[t]
  home : ∀ x, Home start size x → x ∉ lh → d x = v x

/-- the installs of a committed transaction -/
theorem installs_eq (h : ∀ t (h : t < lh.length), d (start + (tail + t) + 1) = v lh[t]) :
    installs start d lh tail = lh.map fun b => (b, v b) := by
  induction lh generalizing tail with
  | nil => rfl
  | cons b lh ih =>
    have h0 := h 0 (by simp)
    simp only [Nat.add_zero, getElem_cons_zero] at h0
    rw [installs, map_cons, h0, ih]
    intro t ht
    have ht' := h (t + 1) (by simpa using ht)
    rw [getElem_cons_succ] at ht'
    rwa [show tail + 1 + t = tail + (t + 1) by omega]

theorem not_home_start (h : 0 < size) : ¬ Home start size start := by
  unfold Home
  omega

/-- the disk after the whole transaction -/
theorem settled_of_installed (h : Committed start size lh v d) (hl : Loggable start size lh) (c : Block) :
    Settled start size v (apply ((lh.map fun b => (b, v b)) ++ [(start, putHead c [])]) d) := by
  have hsize : 0 < size := by have := hl.fits; omega
  rw [apply_append, apply_cons, apply_nil]
  refine ⟨?_, fun x hx => ?_⟩
  · rw [update_self]
    exact headN_putHead c (by simp)
  · have hxs : x ≠ start := by
      rintro rfl
      exact not_home_start hsize hx
    rw [update_of_ne hxs]
    by_cases hmem : x ∈ lh
    · refine apply_of_mem ?_ (mem_map.2 ⟨x, hmem, rfl⟩)
      simpa [map_map, Function.comp_def] using hl.nodup
    · rw [apply_of_not_mem, h.home x hx hmem]
      intro w hw
      obtain ⟨b, hb, rfl⟩ := mem_map.1 hw
      rintro rfl
      exact hmem hb

/-- a part of the installs -/
theorem committed_of_part (h : Committed start size lh v d) (hl : Loggable start size lh) (k : ℕ) :
    Committed start size lh v (apply ((lh.map fun b => (b, v b)).take k) d) := by
  have same (x : ℕ) (hx : x ∉ lh) : apply ((lh.map fun b => (b, v b)).take k) d x = d x := by
    refine apply_of_not_mem fun w hw => ?_
    obtain ⟨b, hb, rfl⟩ := mem_map.1 (mem_of_mem_take hw)
    rintro rfl
    exact hx hb
  have inside (t : ℕ) (ht : t ≤ lh.length) : start + t ∉ lh := by
    intro hmem
    have hfit := hl.fits
    rcases hl.home _ hmem with h | h <;> omega
  refine ⟨?_, fun t ht => ?_, fun x hx hmem => ?_⟩
  · rw [same start (inside 0 (by omega))]; exact h.head
  · rw [Nat.add_assoc, same (start + (t + 1)) (inside (t + 1) (by omega))]
    exact h.log t ht
  · rw [same x hmem]; exact h.home x hx hmem

/-! ## Recovery -/

/-- the disk d after the code, started with the cache v, was cut off after k writes -/
def crashed (p : BlockM Unit) (v d : Disk) (k : ℕ) : Disk := apply ((writesOf p v).take k) d

theorem emits_readHead {f : List ℕ → BlockM Unit} {ws : List (ℕ × Block)} (h : Emits (f (headBlocks (v start))) v ws) :
    Emits (readHead start >>= f) v ws := by
  rw [readHead, bind_assoc]
  refine emits_bread ?_
  rw [pure_bind]
  exact h

theorem recover_settled (h : Settled start size e d) :
    writesOf (recoverFromLog start) d = [(start, putHead (d start) [])] := by
  refine writesOf_eq (emits_readHead ?_)
  have hread : headBlocks (d start) = [] := by simp [headBlocks, h.head]
  rw [hread]
  exact emits_seq (emits_pure d) (emits_writeHead start [] d)

theorem recover_committed (h : Committed start size lh v d) (hl : Loggable start size lh) :
    ∃ c, writesOf (recoverFromLog start) d = (lh.map fun b => (b, v b)) ++ [(start, putHead c [])] := by
  have hlog : installs start d lh 0 = lh.map fun b => (b, v b) :=
    installs_eq fun t ht => by rw [Nat.zero_add]; exact h.log t ht
  have hinst : Emits (installTrans start lh 0) d (installs start d lh 0) :=
    emits_installTrans hl.home (by have := hl.fits; omega)
  rw [hlog] at hinst
  have hhead := emits_writeHead start [] (apply (lh.map fun b => (b, v b)) d)
  refine ⟨apply (lh.map fun b => (b, v b)) d start, writesOf_eq (emits_readHead ?_)⟩
  rw [h.head]
  exact emits_seq hinst hhead

/-- **A recovery that is cut off, from a settled disk.** -/
theorem settled_crash (hsize : 0 < size) (h : Settled start size e d) (k : ℕ) :
    Settled start size e (crashed (recoverFromLog start) d d k) := by
  rw [crashed, recover_settled h]
  cases k with
  | zero => exact h
  | succ k =>
    rw [take_succ_cons, take_nil, apply_cons, apply_nil]
    refine ⟨?_, fun x hx => ?_⟩
    · rw [update_self]
      exact headN_putHead _ (by simp)
    · rw [update_of_ne]
      · exact h.home x hx
      · rintro rfl
        exact not_home_start hsize hx

/-- the writes of a transaction that is on the disk, cut off after k of them -/
theorem installed_crash (h : Committed start size lh v d) (hl : Loggable start size lh) (c : Block) (k : ℕ) :
    Committed start size lh v (apply (((lh.map fun b => (b, v b)) ++ [(start, putHead c [])]).take k) d) ∨
      Settled start size v (apply (((lh.map fun b => (b, v b)) ++ [(start, putHead c [])]).take k) d) := by
  by_cases hk : k ≤ lh.length
  · rw [take_append_of_le_length (by simpa using hk)]
    exact .inl (committed_of_part h hl k)
  · rw [take_of_length_le (by simp; omega)]
    exact .inr (settled_of_installed h hl c)

/-- **A recovery that is cut off, from a committed transaction.** -/
theorem committed_crash (h : Committed start size lh v d) (hl : Loggable start size lh) (k : ℕ) :
    Committed start size lh v (crashed (recoverFromLog start) d d k) ∨
      Settled start size v (crashed (recoverFromLog start) d d k) := by
  obtain ⟨c, e⟩ := recover_committed h hl
  rw [crashed, e]
  exact installed_crash h hl c k

/-! ## Commit -/

theorem copies_length : (copies start v lh tail).length = lh.length := by
  induction lh generalizing tail with
  | nil => rfl
  | cons b lh ih => rw [copies, length_cons, length_cons, ih]

theorem mem_copies {x : ℕ × Block} (h : x ∈ copies start v lh tail) :
    start + tail + 1 ≤ x.1 ∧ x.1 < start + tail + 1 + lh.length := by
  induction lh generalizing tail with
  | nil => simp [copies] at h
  | cons b lh ih =>
    rw [length_cons]
    rcases mem_cons.1 h with rfl | h
    · simp
    · have := ih h
      omega

theorem apply_copies (d : Disk) (h : i < lh.length) : apply (copies start v lh tail) d (start + (tail + i) + 1) = v lh[i] := by
  induction lh generalizing d tail i with
  | nil => simp at h
  | cons b lh ih =>
    rw [copies, apply_cons]
    cases i with
    | zero =>
      rw [apply_of_not_mem]
      · exact update_self ..
      · intro w hw
        have := (mem_copies hw).1
        omega
    | succ i =>
      rw [getElem_cons_succ, ← Nat.add_assoc tail, Nat.add_right_comm tail i]
      exact ih (update d (start + tail + 1) (v b)) (by simpa using h)

/-- the writes to the log leave the header and the blocks outside the log area -/
theorem apply_copies_other (hl : Loggable start size lh) (d : Disk) (k : ℕ) {x : ℕ} (hx : x = start ∨ Home start size x) :
    apply ((copies start v lh 0).take k) d x = d x := by
  refine apply_of_not_mem fun w hw => ?_
  have hmem := mem_copies (mem_of_mem_take hw)
  have hfit := hl.fits
  rcases hx with rfl | h | h <;> omega

theorem apply_all_copies_other (hl : Loggable start size lh) (d : Disk) {x : ℕ} (hx : x = start ∨ Home start size x) :
    apply (copies start v lh 0) d x = d x := by
  have e := apply_copies_other (v := v) hl d (copies start v lh 0).length hx
  rwa [take_length] at e

/-- the log and the header are on the disk -/
theorem committed_of_logged (hl : Loggable start size lh) (hview : ∀ x, x ∉ lh → v x = d x) (c : Block) :
    Committed start size lh v (update (apply (copies start v lh 0) d) start (putHead c lh)) := by
  have hsize : 0 < size := by have := hl.fits; omega
  refine ⟨?_, fun t ht => ?_, fun x hx hmem => ?_⟩
  · rw [update_self]
    exact headBlocks_putHead c hl.capacity hl.word
  · rw [update_of_ne (by omega)]
    have e : apply (copies start v lh 0) d (start + (0 + t) + 1) = v lh[t] := apply_copies d ht
    rwa [Nat.zero_add] at e
  · rw [update_of_ne, apply_all_copies_other hl d (.inr hx), hview x hmem]
    rintro rfl
    exact not_home_start hsize hx

/-- the writes of commit: to the log, the header, to the home blocks, the empty header -/
theorem commit_writes (hl : Loggable start size lh) (hne : 0 < lh.length) (v : Disk) :
    ∃ c, writesOf (commit start lh) v = copies start v lh 0 ++ ((start, putHead (v start) lh) ::
      ((lh.map fun b => (b, v b)) ++ [(start, putHead c [])])) := by
  have hfit := hl.fits
  have hcom := committed_of_logged (d := v) hl (fun _ _ => rfl) (v start)
  set v1 := apply (copies start v lh 0) v
  have h1 : v1 start = v start := apply_all_copies_other hl v (.inl rfl)
  set v2 := update v1 start (putHead (v start) lh)
  have hlog : installs start v2 lh 0 = lh.map fun b => (b, v b) :=
    installs_eq fun t ht => by rw [Nat.zero_add]; exact hcom.log t ht
  have step1 : Emits (writeLog start lh 0) v (copies start v lh 0) := emits_writeLog hl.home (by omega)
  have step2 : Emits (writeHead start lh) v1 [(start, putHead (v start) lh)] := by
    rw [← h1]
    exact emits_writeHead start lh v1
  have step3 : Emits (installTrans start lh 0) v2 (lh.map fun b => (b, v b)) := by
    rw [← hlog]
    exact emits_installTrans hl.home (by omega)
  have step4 := emits_writeHead start [] (apply (lh.map fun b => (b, v b)) v2)
  refine ⟨apply (lh.map fun b => (b, v b)) v2 start, writesOf_eq ?_⟩
  rw [commit, if_pos hne]
  exact emits_seq step1 (emits_seq step2 (emits_seq step3 step4))

/-- **A commit that is cut off** leaves the old blocks as long as its header is not on the disk, and the transaction from then
on. -/
theorem commit_crash (hl : Loggable start size lh) (hview : ∀ x, x ∉ lh → v x = d x) (hclean : headN (d start) = 0) (k : ℕ) :
    ((∀ w ∈ (writesOf (commit start lh) v).take k, w.1 ≠ start) ∧
        Settled start size d (crashed (commit start lh) v d k)) ∨
      (∃ w ∈ (writesOf (commit start lh) v).take k, w.1 = start) ∧
        (Committed start size lh v (crashed (commit start lh) v d k) ∨
          Settled start size v (crashed (commit start lh) v d k)) := by
  by_cases hne : 0 < lh.length
  swap
  · -- nothing is logged, nothing is written
    have e : writesOf (commit start lh) v = [] := by rw [writesOf, commit, if_neg hne]; rfl
    refine .inl ⟨by simp [e], ?_⟩
    rw [crashed, e, take_nil, apply_nil]
    exact ⟨hclean, fun _ _ => rfl⟩
  obtain ⟨c, e⟩ := commit_writes hl hne v
  have hlen : (copies start v lh 0).length = lh.length := copies_length
  rw [crashed, e]
  by_cases hk : k ≤ lh.length
  · left
    rw [take_append_of_le_length (by omega)]
    refine ⟨fun w hw => ?_, ?_, fun x hx => ?_⟩
    · have := (mem_copies (mem_of_mem_take hw)).1
      omega
    · rw [apply_copies_other hl d k (.inl rfl)]; exact hclean
    · exact apply_copies_other hl d k (.inr hx)
  · right
    obtain ⟨j, rfl⟩ : ∃ j, k = lh.length + (j + 1) := ⟨k - lh.length - 1, by omega⟩
    rw [← hlen, take_length_add_append, take_succ_cons, apply_append, apply_cons]
    refine ⟨⟨_, mem_append_right _ mem_cons_self, rfl⟩, ?_⟩
    exact installed_crash (committed_of_logged hl hview _) hl c j

/-! ## Any number of crashes -/

/-- recoveries that are cut off, after as many writes as the list says -/
def reboots (start : ℕ) (d : Disk) (js : List ℕ) : Disk := js.foldl (fun d j => crashed (recoverFromLog start) d d j) d

/-- a complete recovery -/
def recovered (start : ℕ) (d : Disk) : Disk := apply (writesOf (recoverFromLog start) d) d

theorem settled_reboots (hsize : 0 < size) (js : List ℕ) (h : Settled start size e d) :
    Settled start size e (reboots start d js) := by
  induction js generalizing d with
  | nil => exact h
  | cons j js ih => exact ih (settled_crash hsize h j)

theorem committed_reboots (hl : Loggable start size lh) (js : List ℕ)
    (h : Committed start size lh v d ∨ Settled start size v d) :
    Committed start size lh v (reboots start d js) ∨ Settled start size v (reboots start d js) := by
  have hsize : 0 < size := by have := hl.fits; omega
  induction js generalizing d with
  | nil => exact h
  | cons j js ih =>
    rcases h with h | h
    · exact ih (committed_crash h hl j)
    · exact ih (.inr (settled_crash hsize h j))

theorem settled_recovered (hsize : 0 < size) (h : Settled start size e d) : Settled start size e (recovered start d) := by
  have hs := settled_crash hsize h (writesOf (recoverFromLog start) d).length
  rwa [crashed, take_length] at hs

theorem committed_recovered (hl : Loggable start size lh) (h : Committed start size lh v d ∨ Settled start size v d) :
    Settled start size v (recovered start d) := by
  have hsize : 0 < size := by have := hl.fits; omega
  rcases h with h | h
  · obtain ⟨c, e⟩ := recover_committed h hl
    rw [recovered, e]
    exact settled_of_installed h hl c
  · exact settled_recovered hsize h

/-- **Crash atomicity.** d is a disk with an empty log header, and v the cache when commit starts: the logged blocks lh have
their new contents there, all other blocks are as on the disk. Commit is cut off after k writes, then recoveries are cut off
after js writes each, then one recovery is complete. Every block outside the log area is then as in v if the header had
reached the disk, and as in d if not; and the header is empty again. -/
theorem crash_atomicity (start size : ℕ) (lh : List ℕ) (d v : Disk) (k : ℕ) (js : List ℕ) (hl : Loggable start size lh)
    (hclean : headN (d start) = 0) (hview : ∀ x, x ∉ lh → v x = d x) :
    headN (recovered start (reboots start (crashed (commit start lh) v d k) js) start) = 0 ∧
    ((∃ w ∈ (writesOf (commit start lh) v).take k, w.1 = start) → ∀ x, Home start size x →
      recovered start (reboots start (crashed (commit start lh) v d k) js) x = v x) ∧
    ((∀ w ∈ (writesOf (commit start lh) v).take k, w.1 ≠ start) → ∀ x, Home start size x →
      recovered start (reboots start (crashed (commit start lh) v d k) js) x = d x) := by
  have hsize : 0 < size := by have := hl.fits; omega
  rcases commit_crash hl hview hclean k with ⟨hno, hold⟩ | ⟨⟨w, hw, hws⟩, hnew⟩
  · have h := settled_recovered hsize (settled_reboots hsize js hold)
    refine ⟨h.head, ?_, fun _ => h.home⟩
    rintro ⟨w, hw, hws⟩
    exact absurd hws (hno w hw)
  · have h := committed_recovered hl (committed_reboots hl js hnew)
    refine ⟨h.head, fun _ => h.home, ?_⟩
    intro hno
    exact absurd hws (hno w hw)

/-- a disk of zeros, and a cache in which blocks 40 and 41 are not -/
def zeroDisk : Disk := fun _ _ => 0

def twoBlocks : Disk := update (update zeroDisk 40 fun _ => 1) 41 fun _ => 2

/-- The crash is between the two writes into the log, or between those to blocks 40 and 41, and the first recovery is cut off. -/
theorem crash_atomicity_twoBlocks : (∀ x ∈ [40, 41],
    recovered 2 (reboots 2 (crashed (commit 2 [40, 41]) twoBlocks zeroDisk 1) [1]) x = zeroDisk x) ∧ ∀ x ∈ [40, 41],
    recovered 2 (reboots 2 (crashed (commit 2 [40, 41]) twoBlocks zeroDisk 4) [1]) x = twoBlocks x := by
  have hl : Loggable 2 30 [40, 41] := ⟨by decide, by decide, by decide, by simp [Home], by simp⟩
  have hview : ∀ x, x ∉ [40, 41] → twoBlocks x = zeroDisk x := by
    intro x hx
    simp only [mem_cons, not_mem_nil, or_false, not_or] at hx
    rw [twoBlocks, update_of_ne hx.2, update_of_ne hx.1]
  have hhome : ∀ x ∈ [40, 41], Home 2 30 x := hl.home
  exact ⟨fun x hx => (crash_atomicity 2 30 [40, 41] zeroDisk twoBlocks 1 [1] hl (by decide +kernel) hview).2.2
      (by decide +kernel) x (hhome x hx),
    fun x hx => (crash_atomicity 2 30 [40, 41] zeroDisk twoBlocks 4 [1] hl (by decide +kernel) hview).2.1
      (by decide +kernel) x (hhome x hx)⟩

end Xv6.Fs
