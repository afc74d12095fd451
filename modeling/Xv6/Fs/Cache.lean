/-
The buffer cache keeps its buffers consistent with the disk and loses no reference.

- `view`: the disk as the cache shows it: the data of the valid buffer of a block, or else what is on the disk.
- `Bufs`: the invariant of the buffers. A block has at most one buffer. A buffer's refcnt counts the processes that are about to
  take its lock or to give it up, and the one that holds the lock; so one with refcnt 0 is not in use. A valid buffer that is
  not dirty and not being changed equals the disk.
- `Quiet`: what the steps of bio.c leave as it is, the view above all.

Results:
- `bufs_*`, `quiet_*`: each function of bio.c and memide.c keeps the invariant and the view.
-/
import Xv6.Fs.Bio

namespace Xv6.Fs

open Writes Function Finset

variable {s s' : CacheSys} {p q x : ℕ} {i j : Fin NBUF}

/-! ## What the cache shows -/

/-- buffer i is the one of block x -/
def CacheSys.caches (s : CacheSys) (i : Fin NBUF) (x : ℕ) : Prop := (s.buf i).dev = 1 ∧ (s.buf i).blockno = x

def CacheSys.view (s : CacheSys) (x : ℕ) : Block :=
  match s.cached x with
  | some i => if (s.buf i).valid then (s.buf i).data else s.disk x
  | none => s.disk x

/-- how many references to buffer i a process has on account of the call it is in -/
def Call.refs (i : Fin NBUF) : Call → ℕ
  | .waits j _ | .leaves j => if j = i then 1 else 0
  | .idle | .panicked _ => 0

/-- and on account of the lock -/
def Buffer.locks (b : Buffer) : ℕ := if b.lock = none then 0 else 1

structure CacheSys.Bufs (s : CacheSys) : Prop where
  mem : ∀ i, i ∈ s.order
  unique : ∀ i j x, s.caches i x → s.caches j x → i = j
  count : ∀ i, ∃ A : Finset ℕ, (∀ p, p ∈ A ↔ (s.call p).refs i = 1) ∧ (s.buf i).refcnt = A.card + (s.buf i).locks
  waits : ∀ p i x, s.call p = .waits i x → s.caches i x
  locked : ∀ i p, (s.buf i).lock = some p → (s.buf i).dev = 1 ∧ ((s.buf i).valid = true ∨ ∃ m, s.call p = .panicked m)
  valid : ∀ i, (s.buf i).valid = true → (s.buf i).dev = 1 ∧ (s.buf i).blockno < s.disksize
  dirty : ∀ i, (s.buf i).dirty = true → (s.buf i).valid = true
  touched : ∀ i, s.touched i = true → (s.buf i).valid = true ∧ (s.buf i).lock ≠ none
  clean : ∀ i, (s.buf i).valid = true → (s.buf i).dirty = false → s.touched i = false →
    (s.buf i).data = s.disk (s.buf i).blockno

theorem cached_eq_some (h : s.Bufs) : s.cached x = some i ↔ s.caches i x := by
  constructor
  · intro e
    simpa [CacheSys.caches] using List.find?_some e
  · intro hc
    cases e : s.cached x with
    | none =>
      have hno := List.find?_eq_none.1 e i (h.mem i)
      exact absurd hc (by simpa [CacheSys.caches] using hno)
    | some j =>
      have hj : s.caches j x := by simpa [CacheSys.caches] using List.find?_some e
      rw [h.unique j i x hj hc]

theorem cached_eq_none (h : s.Bufs) : s.cached x = none ↔ ∀ i, ¬ s.caches i x := by
  constructor
  · intro e i hc
    rw [(cached_eq_some h).2 hc] at e
    cases e
  · intro hno
    cases e : s.cached x with
    | none => rfl
    | some i => exact absurd ((cached_eq_some h).1 e) (hno i)

theorem view_of_valid (h : s.Bufs) (hc : s.caches i x) (hv : (s.buf i).valid = true) : s.view x = (s.buf i).data := by
  rw [CacheSys.view, (cached_eq_some h).2 hc]
  exact if_pos hv

/-- a block without a valid buffer is read from the disk -/
theorem view_of_invalid (h : s.Bufs) (hno : ∀ i, s.caches i x → (s.buf i).valid = false) : s.view x = s.disk x := by
  rw [CacheSys.view]
  split
  · rename_i i e
    rw [hno i ((cached_eq_some h).1 e)]
    exact if_neg (by decide)
  · rfl

theorem view_eq (h : s.Bufs) {v : Block} (hv : ∀ i, s.caches i x → (s.buf i).valid = true → (s.buf i).data = v)
    (hd : (∀ i, s.caches i x → (s.buf i).valid = false) → s.disk x = v) : s.view x = v := by
  by_cases hc : ∃ i, s.caches i x ∧ (s.buf i).valid = true
  · obtain ⟨i, hi, hi'⟩ := hc
    rw [view_of_valid h hi hi', hv i hi hi']
  · have hno : ∀ i, s.caches i x → (s.buf i).valid = false := by
      intro i hi
      by_contra hne
      exact hc ⟨i, hi, by simpa using hne⟩
    rw [view_of_invalid h hno, hd hno]

/-! ## References -/

theorem refs_le (c : Call) (i : Fin NBUF) : c.refs i ≤ 1 := by
  cases c with
  | idle => exact Nat.zero_le 1
  | waits j x | leaves j => simp only [Call.refs]; split_ifs <;> omega
  | panicked m => exact Nat.zero_le 1

/-- **One process moves.** Its references and the lock account for the change of refcnt. -/
theorem count_step {A : Finset ℕ} (hA : ∀ q, q ∈ A ↔ (s.call q).refs i = 1) (hn : (s.buf i).refcnt = A.card + (s.buf i).locks)
    (hcall : ∀ q, q ≠ p → s'.call q = s.call q)
    (hsum : (s'.buf i).refcnt + (s.call p).refs i + (s.buf i).locks =
      (s.buf i).refcnt + (s'.call p).refs i + (s'.buf i).locks) :
    ∃ A : Finset ℕ, (∀ q, q ∈ A ↔ (s'.call q).refs i = 1) ∧ (s'.buf i).refcnt = A.card + (s'.buf i).locks := by
  have hold := refs_le (s.call p) i
  have hnew := refs_le (s'.call p) i
  by_cases hp : (s'.call p).refs i = 1
  · refine ⟨insert p A, fun q => ?_, ?_⟩
    · by_cases hq : q = p
      · rw [hq]; simp [hp]
      · rw [mem_insert, hcall q hq, ← hA q]; simp [hq]
    · by_cases hpA : p ∈ A
      · have hp1 := (hA p).1 hpA
        rw [insert_eq_of_mem hpA]
        omega
      · have hp0 : (s.call p).refs i ≠ 1 := fun e => hpA ((hA p).2 e)
        rw [card_insert_of_notMem hpA]
        omega
  · refine ⟨A.erase p, fun q => ?_, ?_⟩
    · by_cases hq : q = p
      · rw [hq]; simp [hp]
      · rw [mem_erase, hcall q hq, ← hA q]; simp [hq]
    · by_cases hpA : p ∈ A
      · have hp1 := (hA p).1 hpA
        have hcard := card_erase_add_one hpA
        omega
      · have hp0 : (s.call p).refs i ≠ 1 := fun e => hpA ((hA p).2 e)
        rw [erase_eq_of_notMem hpA]
        omega

/-- a buffer with refcnt 0 is not in use -/
theorem unused_of_refcnt (h : s.Bufs) (h0 : (s.buf i).refcnt = 0) : (s.buf i).lock = none ∧ ∀ p, (s.call p).refs i = 0 := by
  obtain ⟨A, hA, hn⟩ := h.count i
  have hA0 : A = ∅ := card_eq_zero.1 (by omega)
  refine ⟨?_, fun p => ?_⟩
  · by_contra hl
    rw [Buffer.locks, if_neg hl] at hn
    omega
  · have hp : p ∉ A := by rw [hA0]; exact notMem_empty p
    have hne : (s.call p).refs i ≠ 1 := fun e => hp ((hA p).2 e)
    have := refs_le (s.call p) i
    omega

/-! ## One buffer and one process at a time -/

/-- a step of p that changes buffer i only -/
structure Touches (p : ℕ) (i : Fin NBUF) (s s' : CacheSys) : Prop where
  buf : ∀ j, j ≠ i → s'.buf j = s.buf j
  touched : ∀ j, j ≠ i → s'.touched j = s.touched j
  call : ∀ q, q ≠ p → s'.call q = s.call q
  mem : ∀ j, j ∈ s.order → j ∈ s'.order
  disksize : s'.disksize = s.disksize
  disk : ∀ x, ¬ s'.caches i x → s'.disk x = s.disk x
  panicked : ∀ m, s.call p = .panicked m → s'.call p = .panicked m
  refs : ∀ j, j ≠ i → (s'.call p).refs j = (s.call p).refs j

/-- what must hold of buffer i then -/
structure BufAt (p : ℕ) (i : Fin NBUF) (s s' : CacheSys) : Prop where
  unique : ∀ j x, j ≠ i → s'.caches i x → ¬ s.caches j x
  count : (s'.buf i).refcnt + (s.call p).refs i + (s.buf i).locks = (s.buf i).refcnt + (s'.call p).refs i + (s'.buf i).locks
  waits : ∀ j x, s'.call p = .waits j x → s'.caches j x
  waiters : ∀ q x, q ≠ p → s.call q = .waits i x → s'.caches i x
  locked : ∀ q, (s'.buf i).lock = some q →
    (s'.buf i).dev = 1 ∧ ((s'.buf i).valid = true ∨ ∃ m, s'.call q = .panicked m)
  valid : (s'.buf i).valid = true → (s'.buf i).dev = 1 ∧ (s'.buf i).blockno < s'.disksize
  dirty : (s'.buf i).dirty = true → (s'.buf i).valid = true
  touched : s'.touched i = true → (s'.buf i).valid = true ∧ (s'.buf i).lock ≠ none
  clean : (s'.buf i).valid = true → (s'.buf i).dirty = false → s'.touched i = false →
    (s'.buf i).data = s'.disk (s'.buf i).blockno

theorem caches_iff (ht : Touches p i s s') (hj : j ≠ i) : s'.caches j x ↔ s.caches j x := by
  rw [CacheSys.caches, CacheSys.caches, ht.buf j hj]

theorem bufs_step (h : s.Bufs) (ht : Touches p i s s') (hi : BufAt p i s s') : s'.Bufs := by
  refine ⟨fun j => ht.mem j (h.mem j), ?_, ?_, ?_, ?_, ?_, ?_, ?_, ?_⟩
  · intro j k x hj hk
    by_cases hji : j = i
    · by_cases hki : k = i
      · rw [hji, hki]
      · rw [hji] at hj
        exact absurd ((caches_iff ht hki).1 hk) (hi.unique k x hki hj)
    · by_cases hki : k = i
      · rw [hki] at hk
        exact absurd ((caches_iff ht hji).1 hj) (hi.unique j x hji hk)
      · exact h.unique j k x ((caches_iff ht hji).1 hj) ((caches_iff ht hki).1 hk)
  · intro j
    obtain ⟨A, hA, hn⟩ := h.count j
    refine count_step hA hn ht.call ?_
    by_cases hji : j = i
    · rw [hji]; exact hi.count
    · rw [ht.buf j hji, ht.refs j hji]
  · intro q j x e
    by_cases hq : q = p
    · rw [hq] at e
      exact hi.waits j x e
    · rw [ht.call q hq] at e
      by_cases hji : j = i
      · rw [hji] at e ⊢
        exact hi.waiters q x hq e
      · exact (caches_iff ht hji).2 (h.waits q j x e)
  · intro j q e
    by_cases hji : j = i
    · rw [hji] at e ⊢
      exact hi.locked q e
    · rw [ht.buf j hji] at e ⊢
      refine ⟨(h.locked j q e).1, (h.locked j q e).2.imp_right ?_⟩
      rintro ⟨m, hm⟩
      by_cases hq : q = p
      · rw [hq] at hm ⊢
        exact ⟨m, ht.panicked m hm⟩
      · exact ⟨m, by rw [ht.call q hq, hm]⟩
  · intro j
    by_cases hji : j = i
    · rw [hji]; exact hi.valid
    · rw [ht.buf j hji, ht.disksize]; exact h.valid j
  · intro j
    by_cases hji : j = i
    · rw [hji]; exact hi.dirty
    · rw [ht.buf j hji]; exact h.dirty j
  · intro j
    by_cases hji : j = i
    · rw [hji]; exact hi.touched
    · rw [ht.buf j hji, ht.touched j hji]; exact h.touched j
  · intro j
    by_cases hji : j = i
    · rw [hji]; exact hi.clean
    · rw [ht.buf j hji, ht.touched j hji]
      intro hv hd ht'
      rw [h.clean j hv hd ht', ht.disk]
      intro hc
      exact hi.unique j _ hji hc ⟨(h.valid j hv).1, rfl⟩

/-- the view after such a step -/
theorem view_step (h : s.Bufs) (h' : s'.Bufs) (ht : Touches p i s s')
    (hv : s'.caches i x → (s'.buf i).valid = true → (s'.buf i).data = s.view x)
    (hd : s'.caches i x → (s'.buf i).valid = false → s'.disk x = s.view x)
    (ho : s.caches i x → ¬ s'.caches i x → s.view x = s.disk x) : s'.view x = s.view x := by
  refine view_eq h' ?_ ?_
  · intro j hj hvj
    by_cases hji : j = i
    · rw [hji] at hj hvj ⊢
      exact hv hj hvj
    · rw [ht.buf j hji] at hvj ⊢
      exact (view_of_valid h ((caches_iff ht hji).1 hj) hvj).symm
  · intro hno
    by_cases hi : s'.caches i x
    · exact hd hi (hno i hi)
    · rw [ht.disk x hi]
      by_cases hs : s.caches i x
      · exact (ho hs hi).symm
      · refine (view_of_invalid h fun j hj => ?_).symm
        have hji : j ≠ i := by
          rintro rfl
          exact hs hj
        have hvj := hno j ((caches_iff ht hji).2 hj)
        rwa [ht.buf j hji] at hvj

/-- what bio.c leaves as it is -/
structure Quiet (p : ℕ) (s s' : CacheSys) : Prop where
  bufs : s'.Bufs
  log : s'.log = s.log
  start : s'.start = s.start
  script : s'.script = s.script
  given : s'.given = s.given
  call : ∀ q, q ≠ p → s'.call q = s.call q
  view : ∀ x, s'.view x = s.view x
  /-- a dirty buffer stays dirty and the buffer of its block -/
  pinned : ∀ i, (s.buf i).dirty = true → (s'.buf i).dirty = true ∧ (s'.buf i).dev = (s.buf i).dev ∧
    (s'.buf i).blockno = (s.buf i).blockno
  touched : ∀ i, s'.touched i = true → s.touched i = true ∧ (s'.buf i).lock = (s.buf i).lock ∧
    (s'.buf i).blockno = (s.buf i).blockno

section Simp

variable {f : Buffer → Buffer} {c : Call}

@[simp] theorem modBuf_self : (s.modBuf i f).buf i = f (s.buf i) := update_self ..
@[simp] theorem modBuf_ne (h : j ≠ i) : (s.modBuf i f).buf j = s.buf j := update_of_ne h ..
@[simp] theorem modBuf_call : (s.modBuf i f).call = s.call := rfl
@[simp] theorem modBuf_touched : (s.modBuf i f).touched = s.touched := rfl
@[simp] theorem modBuf_disk : (s.modBuf i f).disk = s.disk := rfl
@[simp] theorem modBuf_disksize : (s.modBuf i f).disksize = s.disksize := rfl
@[simp] theorem modBuf_order : (s.modBuf i f).order = s.order := rfl

@[simp] theorem setCall_buf : (s.setCall p c).buf = s.buf := rfl
@[simp] theorem setCall_self : (s.setCall p c).call p = c := update_self ..
@[simp] theorem setCall_ne (h : q ≠ p) : (s.setCall p c).call q = s.call q := update_of_ne h ..
@[simp] theorem setCall_touched : (s.setCall p c).touched = s.touched := rfl
@[simp] theorem setCall_disk : (s.setCall p c).disk = s.disk := rfl
@[simp] theorem setCall_disksize : (s.setCall p c).disksize = s.disksize := rfl

@[simp] theorem refs_idle : Call.refs i .idle = 0 := rfl
@[simp] theorem refs_panicked (m : String) : Call.refs i (.panicked m) = 0 := rfl
@[simp] theorem refs_waits (x : ℕ) : Call.refs i (.waits j x) = if j = i then 1 else 0 := rfl
@[simp] theorem refs_leaves : Call.refs i (.leaves j) = if j = i then 1 else 0 := rfl

end Simp

/-! ## bget -/

theorem bufs_panic (h : s.Bufs) (hp : s.call p = .idle) (m : String) : (s.setCall p (.panicked m)).Bufs := by
  refine ⟨h.mem, h.unique, ?_, ?_, ?_, h.valid, h.dirty, h.touched, h.clean⟩
  · intro i
    obtain ⟨A, hA, hn⟩ := h.count i
    refine count_step hA hn (fun q hq => setCall_ne hq) ?_
    simp [hp]
  · intro q i x e
    by_cases hq : q = p
    · rw [hq, setCall_self] at e; cases e
    · rw [setCall_ne hq] at e
      exact h.waits q i x e
  · intro i q e
    refine ⟨(h.locked i q e).1, ?_⟩
    by_cases hq : q = p
    · exact .inr ⟨m, by rw [hq, setCall_self]⟩
    · rw [setCall_ne hq]
      exact (h.locked i q e).2

theorem quiet_panic (h : s.Bufs) (hp : s.call p = .idle) (m : String) : Quiet p s (s.setCall p (.panicked m)) where
  bufs := bufs_panic h hp m
  log := rfl
  start := rfl
  script := rfl
  given := rfl
  call := fun _ hq => setCall_ne hq
  view := fun _ => rfl
  pinned := fun _ hd => ⟨hd, rfl, rfl⟩
  touched := fun _ ht => ⟨ht, rfl, rfl⟩

/-- a step that changes nothing but the references to buffer i and its lock -/
theorem quiet_of_refs {l : Option ℕ} {n : ℕ} {c : Call} {o : List (Fin NBUF)} (h : s.Bufs)
    (hs' : s' = { (s.modBuf i ({ · with refcnt := n, lock := l })).setCall p c with order := o })
    (ho : ∀ j, j ∈ s.order → j ∈ o) (hpanic : ∀ m, s.call p ≠ .panicked m)
    (hrefs : ∀ j, j ≠ i → c.refs j = (s.call p).refs j)
    (hcount : n + (s.call p).refs i + (s.buf i).locks = (s.buf i).refcnt + c.refs i + (if l = none then 0 else 1))
    (hwaits : ∀ j y, c = .waits j y → s.caches j y)
    (hlock : ∀ q, l = some q → (s.buf i).lock = some q ∨ q = p ∧ (s.buf i).dev = 1 ∧ (s.buf i).valid = true)
    (htouch : s.touched i = true → l = (s.buf i).lock) : Quiet p s s' := by
  have hbuf : s'.buf i = { s.buf i with refcnt := n, lock := l } := by simp [hs']
  have hself : s'.call p = c := by simp [hs']
  have htouched : s'.touched = s.touched := by rw [hs']; rfl
  have hdisk : s'.disk = s.disk := by rw [hs']; rfl
  have hsize : s'.disksize = s.disksize := by rw [hs']; rfl
  have hcaches : ∀ j y, s'.caches j y ↔ s.caches j y := by
    intro j y
    by_cases hj : j = i
    · rw [hj, CacheSys.caches, CacheSys.caches, hbuf]
    · simp [CacheSys.caches, hs', hj]
  have ht : Touches p i s s' := by
    refine ⟨fun j hj => by simp [hs', hj], fun _ _ => by rw [htouched], fun q hq => by simp [hs', hq], ?_, hsize,
      fun _ _ => by rw [hdisk], fun m e => absurd e (hpanic m), fun j hj => by rw [hself, hrefs j hj]⟩
    intro j hj
    rw [hs']; exact ho j hj
  have hat : BufAt p i s s' := by
    refine ⟨?_, ?_, ?_, ?_, ?_, ?_, ?_, ?_, ?_⟩
    · intro j y hj hy hjy
      exact hj (h.unique j i y hjy ((hcaches i y).1 hy))
    · rw [hself, Buffer.locks.eq_def (s'.buf i), hbuf]; exact hcount
    · intro j y e
      rw [hself] at e
      exact (hcaches j y).2 (hwaits j y e)
    · intro q y _ e
      exact (hcaches i y).2 (h.waits q i y e)
    · intro q e
      rw [hbuf] at e ⊢
      rcases hlock q e with hl | ⟨-, hdev, hv⟩
      · refine ⟨(h.locked i q hl).1, (h.locked i q hl).2.imp_right ?_⟩
        rintro ⟨m, hm⟩
        refine ⟨m, ?_⟩
        rw [ht.call q, hm]
        rintro rfl
        exact hpanic m hm
      · exact ⟨hdev, .inl hv⟩
    · rw [hbuf, hsize]; exact h.valid i
    · rw [hbuf]; exact h.dirty i
    · rw [hbuf, htouched]
      intro ht'
      refine ⟨(h.touched i ht').1, ?_⟩
      show l ≠ none
      rw [htouch ht']; exact (h.touched i ht').2
    · rw [hbuf, htouched, hdisk]; exact h.clean i
  have hbufs := bufs_step h ht hat
  refine ⟨hbufs, by rw [hs']; rfl, by rw [hs']; rfl, by rw [hs']; rfl, by rw [hs']; rfl, ht.call, ?_, ?_, ?_⟩
  · intro y
    refine view_step h hbufs ht ?_ ?_ ?_
    · intro hy hv
      rw [hbuf] at hv ⊢
      exact (view_of_valid h ((hcaches i y).1 hy) hv).symm
    · intro hy hv
      rw [hdisk]
      refine (view_of_invalid h fun j hj => ?_).symm
      rw [hbuf] at hv
      rw [h.unique j i y hj ((hcaches i y).1 hy), hv]
    · intro hy hno
      exact absurd ((hcaches i y).2 hy) hno
  · intro j hd
    by_cases hj : j = i
    · rw [hj] at hd ⊢
      rw [hbuf]; exact ⟨hd, rfl, rfl⟩
    · rw [ht.buf j hj]; exact ⟨hd, rfl, rfl⟩
  · intro j htj
    rw [htouched] at htj
    refine ⟨htj, ?_⟩
    by_cases hj : j = i
    · rw [hj] at htj ⊢
      rw [hbuf]; exact ⟨htouch htj, rfl⟩
    · rw [ht.buf j hj]; exact ⟨rfl, rfl⟩

/-- the block has a buffer: one more reference to it -/
theorem quiet_found (h : s.Bufs) (hp : s.call p = .idle) (hc : s.caches i x) :
    Quiet p s ((s.modBuf i fun b => { b with refcnt := b.refcnt + 1 }).setCall p (.waits i x)) := by
  refine quiet_of_refs (n := (s.buf i).refcnt + 1) (l := (s.buf i).lock) (c := .waits i x) (o := s.order) h rfl
    (fun _ hj => hj) (by simp [hp]) ?_ ?_ ?_ (fun _ e => .inl e) (fun _ => rfl)
  · intro j hj
    simp [hp, hj.symm]
  · simp [hp, Buffer.locks]
  · rintro j y ⟨⟩
    exact hc

/-- the block has none: an unused buffer becomes its buffer -/
theorem quiet_recycled (h : s.Bufs) (hp : s.call p = .idle) (hno : ∀ j, ¬ s.caches j x) (h0 : (s.buf i).refcnt = 0)
    (hd : (s.buf i).dirty = false) :
    Quiet p s ((s.modBuf i ({ · with dev := 1, blockno := x, valid := false, dirty := false, refcnt := 1 })).setCall p
      (.waits i x)) := by
  obtain ⟨hlock, hrefs⟩ := unused_of_refcnt h h0
  have hnt : s.touched i = false := by
    by_contra ht
    exact (h.touched i (by simpa using ht)).2 hlock
  -- the old content is on the disk
  have hold : ∀ y, s.caches i y → s.view y = s.disk y := by
    intro y hy
    by_cases hv : (s.buf i).valid = true
    · rw [view_of_valid h hy hv, h.clean i hv hd hnt, hy.2]
    · refine view_of_invalid h fun j hj => ?_
      rw [h.unique j i y hj hy]
      simpa using hv
  set s' := (s.modBuf i ({ · with dev := 1, blockno := x, valid := false, dirty := false, refcnt := 1 })).setCall p
      (.waits i x) with hs'
  have hbuf : s'.buf i = { s.buf i with dev := 1, blockno := x, valid := false, dirty := false, refcnt := 1 } := by
    simp [hs']
  have hcaches : ∀ y, s'.caches i y ↔ x = y := fun y => by rw [CacheSys.caches, hbuf]; simp
  have ht : Touches p i s s' := by
    refine ⟨fun j hj => by simp [hs', hj], fun _ _ => rfl, fun q hq => by simp [hs', hq], fun _ hj => hj, rfl,
      fun _ _ => rfl, fun m e => ?_, fun j hj => by simp [hs', hp, hj.symm]⟩
    rw [hp] at e; cases e
  have hat : BufAt p i s s' := by
    refine ⟨?_, ?_, ?_, ?_, ?_, ?_, ?_, ?_, ?_⟩
    · intro j y _ hy
      rw [← (hcaches y).1 hy]
      exact hno j
    · simp [hs', hp, Buffer.locks, h0, hlock]
    · intro j y e
      simp only [hs', setCall_self, Call.waits.injEq] at e
      obtain ⟨rfl, rfl⟩ := e
      exact (hcaches _).2 rfl
    · intro q y _ e
      have := hrefs q
      simp [e] at this
    · intro q e
      rw [hbuf] at e
      exact absurd (hlock.symm.trans e) (by simp)
    · rw [hbuf]; simp
    · rw [hbuf]; simp
    · intro ht'
      exact absurd (hnt.symm.trans ht') (by simp)
    · rw [hbuf]; simp
  have hbufs := bufs_step h ht hat
  refine ⟨hbufs, rfl, rfl, rfl, rfl, ht.call, ?_, ?_, ?_⟩
  · intro y
    refine view_step h hbufs ht ?_ ?_ (fun hy _ => hold y hy)
    · intro _ hv
      rw [hbuf] at hv
      cases hv
    · intro hy _
      rw [← (hcaches y).1 hy]
      exact (view_of_invalid h fun j hj => absurd hj (hno j)).symm
  · intro j hdj
    have hj : j ≠ i := by
      rintro rfl
      rw [hd] at hdj; cases hdj
    rw [ht.buf j hj]; exact ⟨hdj, rfl, rfl⟩
  · intro j htj
    have hj : j ≠ i := by
      rintro rfl
      exact absurd (hnt.symm.trans htj) (by simp)
    rw [ht.buf j hj]; exact ⟨htj, rfl, rfl⟩

theorem quiet_bget (h : s.Bufs) (hp : s.call p = .idle) (x : ℕ) : Quiet p s (s.bget p x) := by
  rw [CacheSys.bget]
  split
  · rename_i i e
    exact quiet_found h hp ((cached_eq_some h).1 e)
  · rename_i e
    split
    · rename_i i e'
      have hu := List.find?_some e'
      simp only [Bool.not_eq_true, Bool.decide_and, Bool.and_eq_true, decide_eq_true_eq] at hu
      exact quiet_recycled h hp ((cached_eq_none h).1 e) hu.1 hu.2
    · exact quiet_panic h hp _

/-! ## brelse -/

theorem quiet_brelse (h : s.Bufs) (hp : s.call p = .idle) (ht : s.touched i = false) : Quiet p s (s.brelse p i) := by
  rw [CacheSys.brelse]
  split_ifs with hl
  · exact quiet_panic h hp _
  · have hl : (s.buf i).lock = some p := by simpa using hl
    refine quiet_of_refs (n := (s.buf i).refcnt) (l := none) (c := .leaves i) (o := s.order) h rfl
      (fun _ hj => hj) (by simp [hp]) ?_ ?_ (by simp) (by simp) (by simp [ht])
    · intro j hj
      simp [hp, hj.symm]
    · simp [hp, Buffer.locks, hl]

theorem quiet_drop (h : s.Bufs) (hp : s.call p = .leaves i) : Quiet p s (s.drop p i) := by
  have hpos : 0 < (s.buf i).refcnt := by
    by_contra h0
    have := (unused_of_refcnt h (Nat.eq_zero_of_not_pos h0)).2 p
    simp [hp] at this
  have hrefs : ∀ j, j ≠ i → Call.refs j .idle = (s.call p).refs j := by
    intro j hj
    simp [hp, hj.symm]
  have hcount : (s.buf i).refcnt - 1 + (s.call p).refs i + (s.buf i).locks = (s.buf i).refcnt + Call.refs i .idle +
      (if (s.buf i).lock = none then 0 else 1) := by
    simp only [hp, refs_leaves, refs_idle, if_true, Buffer.locks]
    omega
  rw [CacheSys.drop]
  split_ifs with h0
  · refine quiet_of_refs h rfl ?_ (by simp [hp]) hrefs hcount (by simp) (fun _ e => .inl e) (fun _ => rfl)
    intro j hj
    by_cases hji : j = i
    · rw [hji]; exact List.mem_cons_self
    · exact List.mem_cons_of_mem i ((List.mem_erase_of_ne hji).2 hj)
  · exact quiet_of_refs (o := s.order) h rfl (fun _ hj => hj) (by simp [hp]) hrefs hcount (by simp) (fun _ e => .inl e)
      (fun _ => rfl)

/-! ## bread -/

theorem quiet_refl (h : s.Bufs) (p : ℕ) : Quiet p s s :=
  ⟨h, rfl, rfl, rfl, rfl, fun _ _ => rfl, fun _ => rfl, fun _ hd => ⟨hd, rfl, rfl⟩, fun _ ht => ⟨ht, rfl, rfl⟩⟩

/-- p takes the lock of an invalid buffer and fills it, or panics -/
theorem quiet_filled {b : Buffer} {c : Call} (h : s.Bufs) (hp : s.call p = .waits i x) (hl : (s.buf i).lock = none)
    (hv : (s.buf i).valid = false) (hs' : s' = (s.modBuf i fun _ => b).setCall p c)
    (hb : b = { s.buf i with lock := some p } ∧ (∃ m, c = .panicked m) ∨
      b = { s.buf i with lock := some p, data := s.disk x, valid := true } ∧ c = .idle ∧ x < s.disksize) : Quiet p s s' := by
  have hc := h.waits p i x hp
  have hbuf : s'.buf i = b := by simp [hs']
  have hself : s'.call p = c := by simp [hs']
  have htouched : s'.touched = s.touched := by rw [hs']; rfl
  have hdisk : s'.disk = s.disk := by rw [hs']; rfl
  have hsize : s'.disksize = s.disksize := by rw [hs']; rfl
  have hkeep : b.dev = (s.buf i).dev ∧ b.blockno = (s.buf i).blockno ∧ b.dirty = (s.buf i).dirty ∧
      b.refcnt = (s.buf i).refcnt ∧ b.lock = some p := by
    rcases hb with ⟨rfl, -⟩ | ⟨rfl, -, -⟩ <;> simp
  obtain ⟨hdev, hno, hdirty, href, hlock⟩ := hkeep
  have hd : (s.buf i).dirty = false := by
    by_contra hd
    have := h.dirty i (by simpa using hd)
    rw [hv] at this; cases this
  have hnt : s.touched i = false := by
    by_contra ht
    exact (h.touched i (by simpa using ht)).2 hl
  have hc0 : ∀ j, c.refs j = 0 := by
    rcases hb with ⟨-, m, rfl⟩ | ⟨-, rfl, -⟩ <;> simp
  have hcaches : ∀ j y, s'.caches j y ↔ s.caches j y := by
    intro j y
    by_cases hj : j = i
    · rw [hj, CacheSys.caches, CacheSys.caches, hbuf, hdev, hno]
    · simp [CacheSys.caches, hs', hj]
  have ht : Touches p i s s' := by
    refine ⟨fun j hj => by simp [hs', hj], fun _ _ => by rw [htouched], fun q hq => by simp [hs', hq],
      fun j hj => by rw [hs']; exact hj, hsize, fun _ _ => by rw [hdisk], fun m e => ?_, fun j hj => ?_⟩
    · rw [hp] at e; cases e
    · rw [hself, hc0, hp]; simp [hj.symm]
  have hat : BufAt p i s s' := by
    refine ⟨?_, ?_, ?_, ?_, ?_, ?_, ?_, ?_, ?_⟩
    · intro j y hj hy hjy
      exact hj (h.unique j i y hjy ((hcaches i y).1 hy))
    · simp [hself, hc0, hp, hbuf, href, Buffer.locks, hlock, hl]
    · intro j y e
      have := hc0 j
      rw [← hself, e] at this
      simp at this
    · intro q y _ e
      exact (hcaches i y).2 (h.waits q i y e)
    · intro q e
      rw [hbuf, hlock, Option.some.injEq] at e
      rw [hbuf, hdev, ← e, hself]
      refine ⟨hc.1, ?_⟩
      rcases hb with ⟨-, m, rfl⟩ | ⟨rfl, -, -⟩
      · exact .inr ⟨m, rfl⟩
      · exact .inl rfl
    · intro hv'
      rw [hbuf] at hv' ⊢
      rw [hdev, hno, hsize, hc.2]
      rcases hb with ⟨rfl, -⟩ | ⟨-, -, hx⟩
      · rw [hv] at hv'; cases hv'
      · exact ⟨hc.1, hx⟩
    · rw [hbuf, hdirty, hd]; simp
    · rw [htouched, hnt]; simp
    · rw [hbuf, hdisk, hno, hc.2]
      rcases hb with ⟨rfl, -⟩ | ⟨rfl, -, -⟩
      · intro hv'; rw [hv] at hv'; cases hv'
      · exact fun _ _ _ => rfl
  have hbufs := bufs_step h ht hat
  have hview : ∀ y, s.caches i y → s.view y = s.disk y := by
    intro y hy
    refine view_of_invalid h fun j hj => ?_
    rw [h.unique j i y hj hy, hv]
  refine ⟨hbufs, by rw [hs']; rfl, by rw [hs']; rfl, by rw [hs']; rfl, by rw [hs']; rfl, ht.call, ?_, ?_, ?_⟩
  · intro y
    refine view_step h hbufs ht ?_ ?_ ?_
    · intro hy hv'
      have hy := (hcaches i y).1 hy
      rw [hview y hy, hbuf, ← hy.2, hc.2]
      rcases hb with ⟨rfl, -⟩ | ⟨rfl, -, -⟩
      · rw [hbuf, hv] at hv'; cases hv'
      · rfl
    · intro hy _
      rw [hdisk, hview y ((hcaches i y).1 hy)]
    · intro hy hno
      exact absurd ((hcaches i y).2 hy) hno
  · intro j hdj
    have hj : j ≠ i := by
      rintro rfl
      rw [hd] at hdj; cases hdj
    rw [ht.buf j hj]; exact ⟨hdj, rfl, rfl⟩
  · intro j htj
    rw [htouched] at htj
    have hj : j ≠ i := by
      rintro rfl
      exact absurd (hnt.symm.trans htj) (by simp)
    rw [ht.buf j hj]; exact ⟨htj, rfl, rfl⟩

/-- what breadLocked does when the lock is free -/
theorem breadLocked_eq (h : s.Bufs) (hp : s.call p = .waits i x) (hl : (s.buf i).lock = none) :
    s.breadLocked p i =
      if (s.buf i).valid then (s.modBuf i ({ · with lock := some p })).setCall p .idle
      else if s.disksize ≤ x then
        (s.modBuf i fun _ => { s.buf i with lock := some p }).setCall p (.panicked "iderw: block out of range")
      else (s.modBuf i fun _ => { s.buf i with lock := some p, data := s.disk x, valid := true }).setCall p .idle := by
  have hc := h.waits p i x hp
  rw [CacheSys.breadLocked, if_pos hl]
  by_cases hv : (s.buf i).valid = true
  · simp [hv]
  · have hd : (s.buf i).dirty = false := by
      by_contra hd
      exact hv (h.dirty i (by simpa using hd))
    have hv' : (s.buf i).valid = false := by simpa using hv
    simp only [setCall_buf, modBuf_self, hv', Bool.false_eq_true, if_false, CacheSys.iderw, ne_eq, not_true_eq_false,
      hd, not_false_eq_true, and_true, hc.1, hc.2, setCall_disksize, modBuf_disksize, setCall_disk, modBuf_disk]
    split_ifs
    · simp [CacheSys.orPanic, CacheSys.setCall, CacheSys.modBuf, update_idem, hv', hd, hc.1, hc.2]
    · simp [CacheSys.orPanic, CacheSys.setCall, CacheSys.modBuf, update_idem, hd, hc.1, hc.2]

theorem quiet_breadLocked (h : s.Bufs) (hp : s.call p = .waits i x) : Quiet p s (s.breadLocked p i) := by
  by_cases hl : (s.buf i).lock = none
  · have hc := h.waits p i x hp
    rw [breadLocked_eq h hp hl]
    split_ifs with hv hx
    · refine quiet_of_refs (n := (s.buf i).refcnt) (l := some p) (c := .idle) (o := s.order) h rfl (fun _ hj => hj)
        (by simp [hp]) ?_ ?_ (by simp) ?_ ?_
      · intro j hj
        simp [hp, hj.symm]
      · simp [hp, Buffer.locks, hl]
      · rintro q ⟨⟩
        exact .inr ⟨rfl, hc.1, hv⟩
      · intro ht
        exact absurd hl (h.touched i ht).2
    · exact quiet_filled h hp hl (by simpa using hv) rfl (.inl ⟨rfl, _, rfl⟩)
    · exact quiet_filled h hp hl (by simpa using hv) rfl (.inr ⟨rfl, rfl, by omega⟩)
  · rw [CacheSys.breadLocked, if_neg hl]
    exact quiet_refl h p

/-- **bread returns the view.** -/
theorem bread_returns (h : s.Bufs) (hp : s.call p = .waits i x) (hr : (s.breadLocked p i).call p = .idle) :
    ((s.breadLocked p i).buf i).lock = some p ∧ (s.breadLocked p i).caches i x ∧
      ((s.breadLocked p i).buf i).data = s.view x := by
  have hq := quiet_breadLocked h hp
  have hl : (s.buf i).lock = none := by
    by_contra hl
    rw [CacheSys.breadLocked, if_neg hl, hp] at hr
    cases hr
  have hc := h.waits p i x hp
  have hlock : ((s.breadLocked p i).buf i).lock = some p ∧ (s.breadLocked p i).caches i x := by
    rw [breadLocked_eq h hp hl]
    split_ifs <;> simp [CacheSys.caches, hc.1, hc.2]
  refine ⟨hlock.1, hlock.2, ?_⟩
  rw [← hq.view x]
  refine (view_of_valid hq.bufs hlock.2 ?_).symm
  rcases (hq.bufs.locked i p hlock.1).2 with hv | ⟨m, hm⟩
  · exact hv
  · rw [hr] at hm; cases hm

/-! ## Changes in place, and their way to the disk -/

/-- the buffer that p holds -/
theorem held_valid (h : s.Bufs) (hp : s.call p = .idle) (hl : (s.buf i).lock = some p) :
    (s.buf i).valid = true ∧ s.caches i (s.buf i).blockno := by
  refine ⟨?_, (h.locked i p hl).1, rfl⟩
  rcases (h.locked i p hl).2 with hv | ⟨m, hm⟩
  · exact hv
  · rw [hp] at hm; cases hm

/-- a step by the holder of buffer i that changes its contents and flags only -/
theorem bufs_of_held {b : Buffer} {t : Bool} {d : Disk} (h : s.Bufs) (hp : s.call p = .idle) (hl : (s.buf i).lock = some p)
    (hs' : s' = { s.modBuf i fun _ => b with touched := update s.touched i t, disk := d })
    (hb : b.dev = (s.buf i).dev ∧ b.blockno = (s.buf i).blockno ∧ b.refcnt = (s.buf i).refcnt ∧ b.lock = some p ∧
      b.valid = true)
    (hd : ∀ x, x ≠ (s.buf i).blockno → d x = s.disk x)
    (hclean : b.dirty = false → t = false → b.data = d (s.buf i).blockno) : s'.Bufs ∧ Touches p i s s' := by
  obtain ⟨hdev, hno, href, hlock, hvalid⟩ := hb
  obtain ⟨hv, hc⟩ := held_valid h hp hl
  have hbuf : s'.buf i = b := by simp [hs']
  have hcall : s'.call = s.call := by rw [hs']; rfl
  have hcaches : ∀ y, s'.caches i y ↔ s.caches i y := fun y => by rw [CacheSys.caches, CacheSys.caches, hbuf, hdev, hno]
  have ht : Touches p i s s' := by
    refine ⟨fun j hj => by simp [hs', hj], fun j hj => by simp [hs', hj], fun q _ => by rw [hcall],
      fun j hj => by rw [hs']; exact hj, by rw [hs']; rfl, fun y hy => ?_, fun m e => by rw [hcall, e],
      fun j _ => by rw [hcall]⟩
    rw [hs']
    refine hd y fun e => hy ?_
    rw [e]; exact (hcaches _).2 hc
  refine ⟨bufs_step h ht ⟨?_, ?_, ?_, ?_, ?_, ?_, ?_, ?_, ?_⟩, ht⟩
  · intro j y hj hy hjy
    exact hj (h.unique j i y hjy ((hcaches y).1 hy))
  · simp [hcall, hbuf, href, Buffer.locks, hlock, hl]
  · intro j y e
    rw [hcall, hp] at e; cases e
  · intro q y _ e
    exact (hcaches y).2 (h.waits q i y e)
  · intro q _
    rw [hbuf, hdev]; exact ⟨hc.1, .inl hvalid⟩
  · intro _
    rw [hbuf, hdev, hno, ht.disksize]; exact h.valid i hv
  · intro _
    rw [hbuf]; exact hvalid
  · intro _
    rw [hbuf, hlock]; exact ⟨hvalid, by simp⟩
  · have htouched : s'.touched i = t := by simp [hs']
    have hdisk : s'.disk = d := by rw [hs']
    intro _
    rw [hbuf, htouched, hno, hdisk]
    exact hclean

section Held

variable (h : s.Bufs) (hp : s.call p = .idle) (hl : (s.buf i).lock = some p)
include h hp hl

/-- a store gives the block its new content -/
theorem bufs_store (data : Block) : (s.store i data).Bufs :=
  (bufs_of_held (b := { s.buf i with data := data }) (t := true) (d := s.disk) h hp hl rfl
    ⟨rfl, rfl, rfl, hl, (held_valid h hp hl).1⟩ (fun _ _ => rfl) (by simp)).1

theorem view_store (data : Block) : (s.store i data).view = update s.view (s.buf i).blockno data := by
  obtain ⟨hv, hc⟩ := held_valid h hp hl
  have ht : Touches p i s (s.store i data) :=
    (bufs_of_held (b := { s.buf i with data := data }) (t := true) (d := s.disk) h hp hl rfl ⟨rfl, rfl, rfl, hl, hv⟩
      (fun _ _ => rfl) (by simp)).2
  have hbufs := bufs_store h hp hl data
  have hself : (s.store i data).buf i = { s.buf i with data := data } := by simp [CacheSys.store]
  have hcaches : ∀ y, (s.store i data).caches i y ↔ s.caches i y := fun y => by
    rw [CacheSys.caches, CacheSys.caches, hself]
  funext y
  by_cases hy : y = (s.buf i).blockno
  · rw [hy, update_self, view_of_valid hbufs ((hcaches _).2 hc) (by rw [hself]; exact hv), hself]
  · have hno : ¬ s.caches i y := fun hcy => hy hcy.2.symm
    rw [update_of_ne hy]
    refine view_step h hbufs ht ?_ ?_ (fun hcy _ => absurd hcy hno)
    · intro hcy
      exact absurd ((hcaches y).1 hcy) hno
    · intro hcy
      exact absurd ((hcaches y).1 hcy) hno

/-- the flag of a locked buffer is no part of what the cache shows -/
theorem view_flag {b : Bool} (hbufs : s'.Bufs) (ht : Touches p i s s') (hself : s'.buf i = { s.buf i with dirty := b }) :
    s'.view = s.view := by
  obtain ⟨hv, hc⟩ := held_valid h hp hl
  have hcaches : ∀ y, s'.caches i y ↔ s.caches i y := fun y => by rw [CacheSys.caches, CacheSys.caches, hself]
  refine funext fun y => view_step h hbufs ht ?_ ?_ ?_
  · intro hy _
    rw [hself]
    exact (view_of_valid h ((hcaches y).1 hy) hv).symm
  · intro _ hv'
    rw [hself] at hv'
    exact absurd (hv.symm.trans hv') (by simp)
  · intro hy hno
    exact absurd ((hcaches y).2 hy) hno

/-- log_write marks the buffer -/
theorem quiet_pin : Quiet p s { s.modBuf i ({ · with dirty := true }) with touched := update s.touched i false } := by
  obtain ⟨hv, hc⟩ := held_valid h hp hl
  set s' := { s.modBuf i ({ · with dirty := true }) with touched := update s.touched i false } with hs'
  have hstep : s'.Bufs ∧ Touches p i s s' :=
    bufs_of_held (b := { s.buf i with dirty := true }) (t := false) (d := s.disk) h hp hl rfl ⟨rfl, rfl, rfl, hl, hv⟩
      (fun _ _ => rfl) (by simp)
  obtain ⟨hbufs, ht⟩ := hstep
  have hself : s'.buf i = { s.buf i with dirty := true } := by simp [hs']
  refine ⟨hbufs, rfl, rfl, rfl, rfl, fun _ _ => rfl, congrFun (view_flag h hp hl hbufs ht hself), ?_, ?_⟩
  · intro j hd
    by_cases hj : j = i
    · rw [hj, hself]; exact ⟨rfl, rfl, rfl⟩
    · rw [ht.buf j hj]; exact ⟨hd, rfl, rfl⟩
  · intro j htj
    have hj : j ≠ i := by
      rintro rfl
      simp [hs'] at htj
    rw [ht.touched j hj] at htj
    rw [ht.buf j hj]; exact ⟨htj, rfl, rfl⟩

theorem bwrite_eq : s.bwrite p i = { s.modBuf i ({ · with dirty := false }) with
    disk := update s.disk (s.buf i).blockno (s.buf i).data, touched := update s.touched i false } := by
  obtain ⟨hv, hc⟩ := held_valid h hp hl
  have hrange := (h.valid i hv).2
  rw [CacheSys.bwrite, if_neg (by simp [hl])]
  simp only [CacheSys.iderw, modBuf_self, hl, ne_eq, not_true_eq_false, if_false, hc.1, modBuf_disksize, modBuf_disk,
    modBuf_touched, if_true, and_false, Nat.not_le.2 hrange, CacheSys.orPanic]
  simp [CacheSys.modBuf, update_idem, hl, hv, hc.1]

/-- **A write to the disk** does not change what the cache shows. -/
theorem bufs_bwrite : (s.bwrite p i).Bufs ∧ Touches p i s (s.bwrite p i) ∧ (s.bwrite p i).view = s.view := by
  obtain ⟨hv, hc⟩ := held_valid h hp hl
  rw [bwrite_eq h hp hl]
  set s' := { s.modBuf i ({ · with dirty := false }) with
    disk := update s.disk (s.buf i).blockno (s.buf i).data, touched := update s.touched i false } with hs'
  have hstep : s'.Bufs ∧ Touches p i s s' :=
    bufs_of_held (b := { s.buf i with dirty := false }) (t := false)
      (d := update s.disk (s.buf i).blockno (s.buf i).data) h hp hl rfl ⟨rfl, rfl, rfl, hl, hv⟩
      (fun x hx => update_of_ne hx ..) (by simp)
  obtain ⟨hbufs, ht⟩ := hstep
  exact ⟨hbufs, ht, view_flag h hp hl (b := false) hbufs ht (by simp [hs'])⟩

end Held

end Xv6.Fs
