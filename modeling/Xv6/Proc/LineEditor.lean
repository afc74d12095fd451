/-
The console's input ring is a line editor (console.c).

- `Input.key`, `Input.read`: what a typed character and a section of consoleread under cons.lock do to the ring, with the bytes
  that go to the reader.
- `Line`: the same thing without a ring: the bytes that readers may have, and the line that is being typed.
- `Con`: typed characters, and calls of consoleread by any number of processes. A call that finds nothing sleeps and goes on
  later, any number of times; if it is killed it returns -1. The ring and the line editor run in the same machine.
- `taken` and `sent`: all that readers have taken, with a ^D for each end of file, and all that was ever handed to them.

Results:
- `consoleKey_input`, `consoleLoop_input`: the kernel's code;
- `Input.Shows.key`, `Input.Shows.read`: the ring does what the line editor does;
- `ring_is_line_editor`: **for any sequence of characters and calls, the ring is a line editor**;
- `console_code_edits`: **so is the kernel's code, on any CPUs and with other code in between**.
-/
import Xv6.Lib.Runs
import Xv6.Proc.Console
import Xv6.Proc.Effects

namespace Xv6

open LockProg Runs Function List

/-! ## The ring -/

/-- a typed character -/
def Input.key (c : ℕ) (s : Input) : Input :=
  if c = ctrl 'P' then s
  else if c = ctrl 'U' then s.killLine (wordSub s.e s.w)
  else if c = ctrl 'H' ∨ c = 127 then s.backspace
  else if c ≠ 0 ∧ wordSub s.e s.r < INPUT_BUF then
    let s := s.put (newline c)
    if newline c = '\n'.toNat ∨ newline c = ctrl 'D' ∨ s.e = uint32 (s.r + INPUT_BUF) then s.commit else s
  else s

/-- what a section of consoleread has done: bytes for the reader, whether it took a ^D, and how many bytes it sleeps for -/
structure Took (σ : Type) where
  dev : σ
  bytes : List ℕ
  eof : Bool
  left : Option ℕ

/-- one more byte before the others -/
def Took.cons {σ : Type} (c : ℕ) (t : Took σ) : Took σ := { t with bytes := c :: t.bytes }

/-- a section of consoleread that wants n bytes more -/
def Input.read (target : ℕ) : ℕ → Input → Took Input
  | 0, s => ⟨s, [], false, none⟩
  | n + 1, s =>
    if s.r = s.w then ⟨s, [], false, some (n + 1)⟩
    else if s.at s.r = ctrl 'D' then
      if n + 1 < target then ⟨s, [], false, none⟩ else ⟨s.next, [], true, none⟩
    else if s.at s.r = '\n'.toNat then ⟨s.next, [s.at s.r], false, none⟩
    else (Input.read target n s.next).cons (s.at s.r)

/-! ## The kernel's code -/

/-- the rest of the kernel leaves the ring alone -/
def Kernel.SameInput (k k' : Kernel) : Prop := k'.input = k.input

instance : IsPreorder Kernel Kernel.SameInput where
  refl _ := rfl
  trans _ _ _ h h' := h'.trans h

theorem keepsInput_modProc (i : Slot) (f : Proc → Proc) : Keeps Kernel.SameInput (modProc i f) := keeps_writes fun _ _ => rfl

theorem keepsInput_addCount (i : Slot) (d : Int) : Keeps Kernel.SameInput (addCount i d) := by
  refine keeps_writes fun _ k => ?_
  unfold Kernel.addCount Kernel.SameInput
  split_ifs <;> rfl

theorem keepsInput_makeRunnable (i : Slot) (f : ℕ → Proc → Proc) : Keeps Kernel.SameInput (makeRunnable i f) :=
  keeps_bind (keepsInput_modProc i _) fun _ => keeps_bind (keeps_withLock (keeps_writes fun _ _ => rfl)) fun _ =>
    keepsInput_addCount i 1

theorem keepsInput_wakeup (ch : Chan) : Keeps Kernel.SameInput (wakeup ch) := by
  refine keeps_bind (keeps_acquire _) fun _ => keeps_bind (keeps_forEach _ fun i => ?_) fun _ => keeps_release _
  exact keeps_bind (keeps_reads _) fun _ => keeps_ite (keepsInput_makeRunnable i _) (keeps_ret ())

theorem keepsInput_curproc : Keeps Kernel.SameInput curproc := by
  refine keeps_bind (keeps_reads _) fun o => ?_
  cases o with
  | none => exact keeps_panic _
  | some i => exact keeps_ret i

theorem keepsInput_guard {α : Type} {a : Prop} [Decidable a] {m : String} {p : K α} (hp : Keeps Kernel.SameInput p) :
    Keeps Kernel.SameInput (if a then (Prog.panic m : K Unit).bind fun _ => p else p) :=
  keeps_ite (keeps_panic m) hp

theorem keepsInput_sched (ctx : Ctx) : Keeps Kernel.SameInput (sched ctx) := by
  unfold sched
  simp only [Prog.bind_eq]
  refine keeps_bind keepsInput_curproc fun p => keeps_bind (keeps_reads _) fun held => keepsInput_guard ?_
  refine keeps_bind (keeps_reads _) fun more => keepsInput_guard (keeps_bind (keeps_reads _) fun q => keepsInput_guard ?_)
  refine keeps_bind (keepsInput_modProc p _) fun _ => keeps_bind (keeps_writes fun _ _ => rfl) fun _ => ?_
  exact keeps_bind (keeps_writes fun _ _ => rfl) fun _ => keeps_release _

theorem keepsInput_sleepLocked (i : Slot) (ch : Chan) (ctx : Ctx) : Keeps Kernel.SameInput (sleepLocked i ch ctx) := by
  unfold sleepLocked
  simp only [Prog.bind_eq]
  have hend : Keeps Kernel.SameInput ((modProc i fun q => { q with consecutiveRun := 0 }).bind fun _ =>
      (modProc i fun q => { q with state := .sleeping }).bind fun _ => sched ctx) :=
    keeps_bind (keepsInput_modProc i _) fun _ => keeps_bind (keepsInput_modProc i _) fun _ => keepsInput_sched ctx
  refine keeps_bind (keepsInput_modProc i _) fun _ => keeps_bind (keeps_reads _) fun _ => ?_
  exact keeps_ite (keeps_bind (keepsInput_addCount _ _) fun _ => hend) hend

theorem keepsInput_sleep (ch : Chan) (l : Lock) (ctx : Ctx) : Keeps Kernel.SameInput (sleep ch (some l) ctx) := by
  refine keeps_bind (keeps_reads _) fun o => ?_
  cases o with
  | none => exact keeps_panic _
  | some i =>
    refine keeps_ite (keeps_bind (keeps_acquire _) fun _ => ?_) (keepsInput_sleepLocked i ch ctx)
    exact keeps_bind (keeps_release l) fun _ => keepsInput_sleepLocked i ch ctx

section Code

variable {p : Cpu} {w : KWorld}

/-- one turn of consoleintr's loop -/
theorem consoleKey_input (c : ℕ) : ((consoleKey c).run p w).world.st.input = w.st.input.key c := by
  unfold consoleKey Input.key
  by_cases hP : c = ctrl 'P'
  · rw [if_pos hP, if_pos hP]
    rfl
  rw [if_neg hP, if_neg hP]
  by_cases hU : c = ctrl 'U'
  · rw [if_pos hU, if_pos hU]
    rfl
  rw [if_neg hU, if_neg hU]
  by_cases hH : c = ctrl 'H' ∨ c = 127
  · rw [if_pos hH, if_pos hH]
    rfl
  rw [if_neg hH, if_neg hH]
  simp only [consoleChar, kernel, modInput, Prog.bind_eq, run_bind, run_reads, andThen_ok]
  by_cases hput : c ≠ 0 ∧ wordSub w.st.input.e w.st.input.r < INPUT_BUF
  · rw [if_pos hput, if_pos hput]
    simp only [run_bind, run_writes, run_reads, andThen_ok]
    split_ifs
    · simp only [run_bind, run_writes, andThen_ok]
      exact keepsInput_wakeup inputChan p _
    · rfl
  · rw [if_neg hput, if_neg hput]
    rfl

/-- how a section of consoleread exits: it returns the number of bytes that it has got, n of its target being left before; or it
sleeps, or it was killed while it waited -/
def Took.Exits {σ : Type} (t : Took σ) (target n : ℕ) (x : Exit) : Prop :=
  if t.left = none then x = .ret (target - n + t.bytes.length) else x = .switched ∨ x = .ret (-1)

/-- a section of consoleread ends as t says, and the ring is that of t however it ends -/
structure Ends (target n : ℕ) (t : Took Input) (o : Outcome Lock Cpu Kernel Exit) : Prop where
  ring : o.world.st.input = t.dev
  exit : ∀ x w', o = .ok x w' → t.Exits target n x

variable {target n c : ℕ} {t : Took Input} {x : Exit}

theorem ends_ret {q : K Unit} (hq : Keeps Kernel.SameInput q) (hring : w.st.input = t.dev) (hx : t.Exits target n x) :
    Ends target n t ((q.bind fun _ => .ret x).run p w) := by
  refine ⟨(keeps_bind hq (fun _ => keeps_ret x) p w).trans hring, fun y w' hrun => ?_⟩
  rw [run_bind] at hrun
  cases hw : q.run p w with
  | ok a w1 =>
    rw [hw, andThen_ok, run_ret] at hrun
    injection hrun with hxy
    rw [← hxy]
    exact hx
  | panic m w1 | spin l w1 => rw [hw] at hrun; cases hrun

theorem ends_panic {m : String} (hring : w.st.input = t.dev) : Ends target n t ((Prog.panic m : K Exit).run p w) :=
  ⟨hring, fun _ _ hrun => by cases hrun⟩

/-- one byte more for the reader -/
theorem ends_cons {o : Outcome Lock Cpu Kernel Exit} (h : Ends target n t o) : Ends target (n + 1) (t.cons c) o := by
  refine ⟨h.ring, fun x w' hrun => ?_⟩
  have hlen : (target : Int) - (n + 1 : ℕ) + (t.cons c).bytes.length = target - n + t.bytes.length := by
    rw [Took.cons, length_cons]
    push_cast
    omega
  rw [Took.Exits, hlen]
  exact h.exit x w' hrun

/-- **consoleread under cons.lock is `Input.read`.** -/
theorem consoleLoop_input (target n : ℕ) :
    Ends target n (w.st.input.read target n) ((consoleLoop target n).run p w) := by
  induction n generalizing w with
  | zero => exact ends_ret (keeps_release _) rfl (by simp [Took.Exits, Input.read])
  | succ n ih =>
    simp only [consoleLoop, Input.read, Prog.bind_eq, run_bind, kernel, run_reads, andThen_ok]
    split_ifs with hempty hD hkeep hnl
    · -- nothing there
      cases hcur : (w.st.cpu p).proc with
      | none =>
        simp only [curproc, myproc, Prog.bind_eq, run_bind, run_reads, andThen_ok, hcur]
        exact ends_panic (p := p) rfl
      | some i =>
        simp only [curproc, myproc, getProc, Prog.bind_eq, Prog.pure_eq, run_bind, run_reads, run_ret, andThen_ok, hcur]
        split_ifs with hk
        · exact ends_ret (keeps_release _) rfl (by simp [Took.Exits])
        · exact ends_ret (keepsInput_sleep _ _ _) rfl (by simp [Took.Exits])
    · exact ends_ret (keeps_release _) rfl (by simp [Took.Exits])
    · rw [run_bind, modInput, run_writes, andThen_ok]
      exact ends_ret (keeps_release _) rfl (by simp [Took.Exits])
    · rw [run_bind, modInput, run_writes, andThen_ok]
      exact ends_ret (keeps_release _) rfl (by simp [Took.Exits]; omega)
    · rw [run_bind, modInput, run_writes, andThen_ok]
      exact ends_cons (ih (w := ⟨w.locks, { w.st with input := w.st.input.next }⟩))

end Code

/-! ## The line editor -/

structure Line where
  /-- all that was ever committed -/
  sent : List ℕ
  /-- the part of it that no reader has taken -/
  committed : List ℕ
  /-- the line that is being typed -/
  line : List ℕ

def Line.commit (l : Line) : Line := ⟨l.sent ++ l.line, l.committed ++ l.line, []⟩

def Line.key (c : ℕ) (l : Line) : Line :=
  if c = ctrl 'P' then l
  else if c = ctrl 'U' then { l with line := [] }
  else if c = ctrl 'H' ∨ c = 127 then { l with line := l.line.dropLast }
  else if c ≠ 0 ∧ l.committed.length + l.line.length < INPUT_BUF then
    let l := { l with line := l.line ++ [newline c] }
    if newline c = '\n'.toNat ∨ newline c = ctrl 'D' ∨ l.committed.length + l.line.length = INPUT_BUF then l.commit else l
  else l

/-- a reader that wants n bytes more takes the committed bytes up to a newline or a ^D; a ^D after some bytes stays -/
def Line.read (target : ℕ) : ℕ → Line → Took Line
  | 0, l => ⟨l, [], false, none⟩
  | n + 1, ⟨sent, [], line⟩ => ⟨⟨sent, [], line⟩, [], false, some (n + 1)⟩
  | n + 1, ⟨sent, c :: rest, line⟩ =>
    if c = ctrl 'D' then
      if n + 1 < target then ⟨⟨sent, c :: rest, line⟩, [], false, none⟩ else ⟨⟨sent, rest, line⟩, [], true, none⟩
    else if c = '\n'.toNat then ⟨⟨sent, rest, line⟩, [c], false, none⟩
    else (Line.read target n ⟨sent, rest, line⟩).cons c

/-! ## The ring holds the bytes of the line editor -/

/-- n places of the ring from index i on -/
def Input.window (s : Input) (i n : ℕ) : List ℕ := (List.range n).map fun j => s.at (i + j)

structure Input.Shows (s : Input) (l : Line) : Prop where
  word : s.r < 2 ^ 32
  w : s.w = uint32 (s.r + l.committed.length)
  e : s.e = uint32 (s.r + (l.committed.length + l.line.length))
  room : l.committed.length + l.line.length ≤ INPUT_BUF
  bytes : s.window s.r (l.committed.length + l.line.length) = l.committed ++ l.line
  clean : '\n'.toNat ∉ l.line

variable {s : Input} {l : Line} {c i n : ℕ}

theorem at_uint32 : s.at (uint32 i) = s.at i := by
  unfold Input.at uint32
  congr 1
  apply Fin.ext
  simp only [Fin.val_ofNat, INPUT_BUF]
  omega

/-- the indices do not matter -/
theorem window_buf (s s' : Input) (h : s'.buf = s.buf) : s'.window i n = s.window i n := by
  unfold Input.window Input.at
  rw [h]

theorem window_snoc : s.window i (n + 1) = s.window i n ++ [s.at (i + n)] := by
  unfold Input.window
  rw [range_succ, map_append, map_singleton]

theorem window_cons : s.window i (n + 1) = s.at i :: s.window (i + 1) n := by
  unfold Input.window
  rw [range_succ_eq_map, map_cons, map_map, Nat.add_zero]
  refine congrArg _ (map_congr_left fun j _ => ?_)
  rw [Function.comp, Nat.succ_eq_add_one, Nat.add_right_comm, Nat.add_assoc]

theorem window_uint32 : s.window (uint32 i) n = s.window i n := by
  refine map_congr_left fun j _ => ?_
  unfold Input.at uint32
  congr 1
  apply Fin.ext
  simp only [Fin.val_ofNat, INPUT_BUF]
  omega

/-- a byte stored behind a window that is not the whole ring -/
theorem window_put (he : s.e = uint32 (i + n)) (hn : n < INPUT_BUF) : (s.put c).window i n = s.window i n := by
  refine map_congr_left fun j hj => ?_
  have hlt : j < n := mem_range.1 hj
  refine update_of_ne (fun heq => ?_) _ _
  have hmod := congrArg Fin.val heq
  unfold uint32 at he
  simp only [Fin.val_ofNat, INPUT_BUF, he] at hmod hn
  omega

theorem put_at (he : s.e = uint32 (i + n)) : (s.put c).at (i + n) = c := by
  rw [← at_uint32, ← he]
  exact update_self ..

theorem wordSub_uint32 {r : ℕ} (hr : r < 2 ^ 32) (hn : n < 2 ^ 32) : wordSub (uint32 (r + n)) r = n := by
  unfold wordSub uint32
  omega

namespace Input.Shows

variable (h : s.Shows l)

include h

theorem used : wordSub s.e s.r = l.committed.length + l.line.length := by
  have hroom := h.room
  rw [h.e, wordSub_uint32 h.word]
  simp only [INPUT_BUF] at hroom
  omega

theorem handed : wordSub s.w s.r = l.committed.length := by
  have hroom := h.room
  rw [h.w, wordSub_uint32 h.word]
  simp only [INPUT_BUF] at hroom
  omega

theorem typed : wordSub s.e s.w = l.line.length := by
  have hroom := h.room
  simp only [INPUT_BUF] at hroom
  rw [h.e, h.w]
  unfold wordSub uint32
  omega

theorem empty_iff : s.r = s.w ↔ l.committed = [] := by
  have hroom := h.room
  have hr := h.word
  simp only [INPUT_BUF] at hroom
  rw [h.w, ← length_eq_zero_iff]
  unfold uint32
  omega

theorem editing_iff : s.e ≠ s.w ↔ l.line ≠ [] := by
  have hroom := h.room
  simp only [INPUT_BUF] at hroom
  rw [h.e, h.w, ne_eq, ne_eq, ← length_eq_zero_iff]
  unfold uint32
  omega

/-- the place before e holds the last character of the line, and is given up -/
theorem back {cs : List ℕ} (hl : l.line = cs ++ [c]) : s.at s.last = c ∧ Shows { s with e := s.last } { l with line := cs } := by
  have hlen : l.committed.length + l.line.length = l.committed.length + cs.length + 1 := by
    rw [hl, length_append, length_singleton, Nat.add_assoc]
  have hlast : s.last = uint32 (s.r + (l.committed.length + cs.length)) := by
    unfold Input.last
    rw [h.e, hlen]
    unfold uint32
    omega
  have hbytes := h.bytes
  rw [hlen, window_snoc, hl, ← append_assoc] at hbytes
  obtain ⟨hrest, hc⟩ := append_inj' hbytes rfl
  have hshow : Input.window { s with e := s.last } s.r (l.committed.length + cs.length) = l.committed ++ cs :=
    (window_buf s ⟨s.buf, s.r, s.w, s.last⟩ rfl).trans hrest
  refine ⟨?_, h.word, h.w, hlast, ?_, hshow, fun hmem => ?_⟩
  · rw [hlast, at_uint32]
    exact head_eq_of_cons_eq hc
  · have hroom := h.room
    simp only
    omega
  · refine h.clean ?_
    rw [hl]
    exact mem_append_left _ hmem

theorem backspace : s.backspace.Shows { l with line := l.line.dropLast } := by
  unfold Input.backspace
  rcases eq_nil_or_concat l.line with hnil | ⟨cs, c, hl⟩
  · rw [if_neg fun hne => h.editing_iff.1 hne hnil, hnil, dropLast_nil, ← hnil]
    exact h
  · rw [concat_eq_append] at hl
    rw [if_pos (h.editing_iff.2 (by rw [hl]; simp)), hl, dropLast_concat]
    exact (h.back hl).2

/-- ^U goes back to the start of the line: there is no newline in it -/
theorem killLine : (s.killLine l.line.length).Shows { l with line := [] } := by
  obtain ⟨n, hn⟩ : ∃ n, l.line.length = n := ⟨_, rfl⟩
  rw [hn]
  induction n generalizing s l with
  | zero =>
    have hnil := length_eq_zero_iff.1 hn
    rw [Input.killLine, ← hnil]
    exact h
  | succ n ih =>
    rcases eq_nil_or_concat l.line with hnil | ⟨cs, c, hl⟩
    · rw [hnil] at hn
      cases hn
    rw [concat_eq_append] at hl
    obtain ⟨hat, hback⟩ := h.back hl
    have hc : c ≠ '\n'.toNat := by
      intro he
      refine h.clean ?_
      rw [hl, ← he]
      exact mem_append_right _ (mem_singleton_self c)
    rw [Input.killLine, if_pos ⟨h.editing_iff.2 (by rw [hl]; simp), by rwa [hat]⟩]
    refine ih (l := { l with line := cs }) hback ?_
    rw [hl, length_append, length_singleton] at hn
    exact Nat.succ.inj hn

theorem put_e : (s.put c).e = uint32 (s.r + (l.committed.length + (l.line ++ [c]).length)) := by
  rw [length_append, length_singleton, Input.put]
  simp only [h.e]
  unfold uint32
  omega

theorem put_bytes (hroom : l.committed.length + l.line.length < INPUT_BUF) :
    (s.put c).window s.r (l.committed.length + (l.line ++ [c]).length) = l.committed ++ (l.line ++ [c]) := by
  rw [length_append, length_singleton, ← Nat.add_assoc, window_snoc, put_at h.e, window_put h.e hroom, h.bytes,
    append_assoc]

/-- a character at the end of the line -/
theorem put (hroom : l.committed.length + l.line.length < INPUT_BUF) (hc : c ≠ '\n'.toNat) :
    (s.put c).Shows { l with line := l.line ++ [c] } := by
  refine ⟨h.word, h.w, h.put_e, ?_, h.put_bytes hroom, fun hmem => ?_⟩
  · simp only [length_append, length_singleton]
    omega
  · rcases mem_append.1 hmem with hold | hnew
    · exact h.clean hold
    · exact hc (mem_singleton.1 hnew).symm

/-- a character that ends the line -/
theorem put_commit (hroom : l.committed.length + l.line.length < INPUT_BUF) :
    (s.put c).commit.Shows (Line.commit { l with line := l.line ++ [c] }) := by
  have hlen : (l.committed ++ (l.line ++ [c])).length = l.committed.length + (l.line ++ [c]).length := length_append
  refine ⟨h.word, ?_, ?_, ?_, ?_, not_mem_nil⟩
  · simp only [Line.commit, Input.commit, hlen]
    exact h.put_e
  · simp only [Line.commit, Input.commit, hlen, length_nil, Nat.add_zero]
    exact h.put_e
  · simp only [Line.commit, hlen, length_nil, length_append, length_singleton]
    omega
  · simp only [Line.commit, hlen, length_nil, Nat.add_zero, append_nil]
    exact (window_buf (s.put c) (s.put c).commit rfl).trans (h.put_bytes hroom)

/-- **A typed character.** -/
theorem key (c : ℕ) : (s.key c).Shows (l.key c) := by
  unfold Input.key Line.key
  rw [h.used, h.typed]
  by_cases hP : c = ctrl 'P'
  · rw [if_pos hP, if_pos hP]
    exact h
  rw [if_neg hP, if_neg hP]
  by_cases hU : c = ctrl 'U'
  · rw [if_pos hU, if_pos hU]
    exact h.killLine
  rw [if_neg hU, if_neg hU]
  by_cases hH : c = ctrl 'H' ∨ c = 127
  · rw [if_pos hH, if_pos hH]
    exact h.backspace
  rw [if_neg hH, if_neg hH]
  by_cases hput : c ≠ 0 ∧ l.committed.length + l.line.length < INPUT_BUF
  swap
  · rw [if_neg hput, if_neg hput]
    exact h
  rw [if_pos hput, if_pos hput]
  have hfull : (s.put (newline c)).e = uint32 ((s.put (newline c)).r + INPUT_BUF) ↔
      l.committed.length + (l.line ++ [newline c]).length = INPUT_BUF := by
    have hr : (s.put (newline c)).r = s.r := rfl
    have hlt := hput.2
    rw [h.put_e, hr, length_append, length_singleton]
    simp only [INPUT_BUF] at hlt ⊢
    unfold uint32
    omega
  simp only [hfull]
  split_ifs with hend
  · exact h.put_commit hput.2
  · exact h.put hput.2 fun hnl => hend (.inl hnl)

/-- the byte at r is the first of the committed ones, and is given up -/
theorem pop {cs : List ℕ} (hl : l.committed = c :: cs) : s.at s.r = c ∧ s.next.Shows { l with committed := cs } := by
  have hlen : l.committed.length + l.line.length = cs.length + l.line.length + 1 := by
    rw [hl, length_cons]
    omega
  have hbytes := h.bytes
  rw [hlen, window_cons, hl, cons_append] at hbytes
  obtain ⟨hc, hrest⟩ := cons_eq_cons.1 hbytes
  have hlt : cs.length + 1 = l.committed.length := by rw [hl, length_cons]
  refine ⟨hc, uint32_lt _, ?_, ?_, ?_, ?_, h.clean⟩
  · simp only [Input.next]
    rw [h.w, ← hlt]
    unfold uint32
    omega
  · simp only [Input.next]
    rw [h.e, ← hlt]
    unfold uint32
    omega
  · have hroom := h.room
    simp only
    omega
  · refine (window_buf s s.next rfl).trans ?_
    simp only [Input.next]
    rw [window_uint32, hrest]

end Input.Shows

/-- the ring has done what the line editor has -/
structure Took.Shows (t : Took Input) (u : Took Line) : Prop where
  dev : t.dev.Shows u.dev
  bytes : t.bytes = u.bytes
  eof : t.eof = u.eof
  left : t.left = u.left

/-- **A section of consoleread.** -/
theorem Input.Shows.read (target n : ℕ) (h : s.Shows l) : (s.read target n).Shows (l.read target n) := by
  induction n generalizing s l with
  | zero => exact ⟨h, rfl, rfl, rfl⟩
  | succ n ih =>
    obtain ⟨sent, committed, line⟩ := l
    cases committed with
    | nil =>
      rw [Input.read, Line.read, if_pos (h.empty_iff.2 rfl)]
      exact ⟨h, rfl, rfl, rfl⟩
    | cons c cs =>
      obtain ⟨hc, hnext⟩ := h.pop rfl
      rw [Input.read, Line.read, if_neg fun he => cons_ne_nil c cs (h.empty_iff.1 he), hc]
      by_cases hD : c = ctrl 'D'
      · rw [if_pos hD, if_pos hD]
        split_ifs with hkeep
        · exact ⟨h, rfl, rfl, rfl⟩
        · exact ⟨hnext, rfl, rfl, rfl⟩
      rw [if_neg hD, if_neg hD]
      by_cases hnl : c = '\n'.toNat
      · rw [if_pos hnl, if_pos hnl]
        exact ⟨hnext, rfl, rfl, rfl⟩
      rw [if_neg hnl, if_neg hnl]
      obtain ⟨hdev, hbytes, heof, hleft⟩ := ih hnext
      exact ⟨hdev, congrArg (c :: ·) hbytes, heof, hleft⟩

/-! ## What a reader takes -/

/-- the bytes that a section has taken off the ring -/
def Took.taken {σ : Type} (t : Took σ) : List ℕ := t.bytes ++ if t.eof then [ctrl 'D'] else []

theorem read_takes (target n : ℕ) (l : Line) : (l.read target n).dev.sent = l.sent ∧
    (l.read target n).taken ++ (l.read target n).dev.committed = l.committed := by
  induction n generalizing l with
  | zero => exact ⟨rfl, rfl⟩
  | succ n ih =>
    obtain ⟨sent, committed, line⟩ := l
    cases committed with
    | nil => exact ⟨rfl, rfl⟩
    | cons c cs =>
      rw [Line.read]
      split_ifs with hD hkeep hnl
      · exact ⟨rfl, rfl⟩
      · rw [hD]
        exact ⟨rfl, rfl⟩
      · exact ⟨rfl, rfl⟩
      · obtain ⟨hsent, htaken⟩ := ih ⟨sent, cs, line⟩
        exact ⟨hsent, congrArg (c :: ·) htaken⟩

/-- what is committed has been sent, and nothing that was sent goes away -/
theorem key_sends (c : ℕ) (l : Line) : ∃ cs, (l.key c).sent = l.sent ++ cs ∧ (l.key c).committed = l.committed ++ cs := by
  have hnone : ∃ cs, l.sent = l.sent ++ cs ∧ l.committed = l.committed ++ cs := ⟨[], by simp⟩
  simp only [Line.key]
  split_ifs
  · exact hnone
  · exact hnone
  · exact hnone
  · exact ⟨_, rfl, rfl⟩
  · exact hnone
  · exact hnone

/-! ## Calls of consoleread -/

structure Dev (σ : Type) where
  key : ℕ → σ → σ
  read : ℕ → ℕ → σ → Took σ

def ring : Dev Input := ⟨Input.key, Input.read⟩

def lineEditor : Dev Line := ⟨Line.key, Line.read⟩

/-- the console and the processes that read from it -/
structure Con (ι σ : Type) where
  dev : σ
  /-- the calls that sleep: the target, and the bytes still wanted -/
  pending : ι → Option (ℕ × ℕ)
  /-- the bytes that a sleeping call has got -/
  got : ι → List ℕ
  /-- the calls that have returned, with their bytes; none is -1 -/
  results : List (ι × Option (List ℕ))
  taken : List ℕ

inductive ConEvent (ι : Type) where
  | key (c : ℕ)
  | read (i : ι) (n : ℕ) (killed : Bool)
  | wake (i : ι) (killed : Bool)

section Calls

variable {ι σ : Type} [DecidableEq ι] (D : Dev σ)

/-- a section of the call of process i, which has got some bytes and wants n more -/
def Con.enter (s : Con ι σ) (i : ι) (target n : ℕ) (killed : Bool) (got : List ℕ) : Con ι σ :=
  let t := D.read target n s.dev
  let s := { s with dev := t.dev, taken := s.taken ++ t.taken }
  match t.left with
  | none => { s with pending := update s.pending i none, results := s.results ++ [(i, some (got ++ t.bytes))] }
  | some n =>
    if killed then { s with pending := update s.pending i none, results := s.results ++ [(i, none)] }
    else { s with pending := update s.pending i (some (target, n)), got := update s.got i (got ++ t.bytes) }

def Con.step (s : Con ι σ) : ConEvent ι → Con ι σ
  | .key c => { s with dev := D.key c s.dev }
  | .read i n killed =>
    match s.pending i with
    | some _ => s
    | none => s.enter D i n n killed []
  | .wake i killed =>
    match s.pending i with
    | some (target, n) => s.enter D i target n killed (s.got i)
    | none => s

def Con.run (s : Con ι σ) (es : List (ConEvent ι)) : Con ι σ := es.foldl (Con.step D) s

def Con.boot (dev : σ) : Con ι σ := ⟨dev, fun _ => none, fun _ => [], [], []⟩

/-- the ring with all indices at i -/
def Input.start (buf : Fin INPUT_BUF → ℕ) (i : ℕ) : Input := ⟨buf, uint32 i, uint32 i, uint32 i⟩

/-- the two consoles have done the same, and the readers have what was sent -/
structure Con.Same (s : Con ι Input) (d : Con ι Line) : Prop where
  dev : s.dev.Shows d.dev
  pending : s.pending = d.pending
  got : s.got = d.got
  results : s.results = d.results
  taken : s.taken = d.taken
  sent : d.taken ++ d.dev.committed = d.dev.sent

variable {s : Con ι Input} {d : Con ι Line}

theorem same_enter (h : s.Same d) (i : ι) (target n : ℕ) (killed : Bool) (got : List ℕ) :
    (s.enter ring i target n killed got).Same (d.enter lineEditor i target n killed got) := by
  obtain ⟨hdev, hbytes, heof, hleft⟩ := h.dev.read target n
  obtain ⟨hsent, htakes⟩ := read_takes target n d.dev
  have htaken : (s.dev.read target n).taken = (d.dev.read target n).taken := by rw [Took.taken, Took.taken, hbytes, heof]
  have hall : d.taken ++ (d.dev.read target n).taken ++ (d.dev.read target n).dev.committed = (d.dev.read target n).dev.sent := by
    rw [append_assoc, htakes, hsent, h.sent]
  unfold Con.enter
  simp only [ring, lineEditor, hleft, hbytes, htaken, h.pending, h.got, h.results, h.taken]
  cases (d.dev.read target n).left with
  | none => exact ⟨hdev, rfl, rfl, rfl, rfl, hall⟩
  | some m =>
    cases killed with
    | true | false => exact ⟨hdev, rfl, rfl, rfl, rfl, hall⟩

theorem same_step (h : s.Same d) (e : ConEvent ι) : (s.step ring e).Same (d.step lineEditor e) := by
  cases e with
  | key c =>
    obtain ⟨cs, hsent, hcommitted⟩ := key_sends c d.dev
    refine ⟨h.dev.key c, h.pending, h.got, h.results, h.taken, ?_⟩
    simp only [Con.step, lineEditor]
    rw [hsent, hcommitted, ← append_assoc, h.sent]
  | read i n killed =>
    simp only [Con.step, h.pending]
    cases d.pending i with
    | some x => exact h
    | none => exact same_enter h ..
  | wake i killed =>
    simp only [Con.step, h.pending, h.got]
    cases d.pending i with
    | some x => exact same_enter h ..
    | none => exact h

theorem same_run (h : s.Same d) (es : List (ConEvent ι)) : (s.run ring es).Same (d.run lineEditor es) := by
  induction es generalizing s d with
  | nil => exact h
  | cons e es ih => exact ih (same_step h e)

omit [DecidableEq ι] in
theorem same_boot (buf : Fin INPUT_BUF → ℕ) (i : ℕ) :
    (Con.boot (Input.start buf i) : Con ι Input).Same (Con.boot ⟨[], [], []⟩) := by
  refine ⟨⟨uint32_lt i, ?_, ?_, Nat.zero_le _, rfl, not_mem_nil⟩, rfl, rfl, rfl, rfl, rfl⟩
  · exact (uint32_eq (uint32_lt i)).symm
  · exact (uint32_eq (uint32_lt i)).symm

/-- **The input ring is a line editor.** Characters are typed and consoleread is called by any processes, in any order, from an
empty ring with its indices anywhere. Then w is between r and e, and at most INPUT_BUF places are used; the ring holds the
committed bytes and the line of the line editor that has seen the same; the calls have the same bytes and results; and all
that was committed is, in this order, what was taken and what is still there. -/
theorem ring_is_line_editor (buf : Fin INPUT_BUF → ℕ) (i : ℕ) (es : List (ConEvent ι)) :
    let s := (Con.boot (Input.start buf i)).run ring es
    let d := (Con.boot ⟨[], [], []⟩).run lineEditor es
    (wordSub s.dev.w s.dev.r ≤ wordSub s.dev.e s.dev.r ∧ wordSub s.dev.e s.dev.r ≤ INPUT_BUF) ∧
      s.dev.Shows d.dev ∧ s.results = d.results ∧ s.pending = d.pending ∧ s.got = d.got ∧
      s.taken ++ d.dev.committed = d.dev.sent := by
  have h := same_run (same_boot (ι := ι) buf i) es
  refine ⟨⟨?_, ?_⟩, h.dev, h.results, h.pending, h.got, ?_⟩
  · rw [h.dev.handed, h.dev.used]
    exact Nat.le_add_right ..
  · rw [h.dev.used]
    exact h.dev.room
  · rw [h.taken]
    exact h.sent

end Calls

/-! ## Runs of the kernel's code -/

/-- a turn of consoleintr's loop on some CPU, a section of consoleread with its exit, or other code -/
inductive ConsoleOp where
  | key (c : ℕ)
  | read (target n : ℕ) (x : Exit)
  | other

def ConsoleOp.Runs (w : KWorld) : ConsoleOp → KWorld → Prop
  | .key c, w' => ∃ p, (consoleKey c).run p w = .ok () w'
  | .read target n x, w' => ∃ p, (consoleLoop target n).run p w = .ok x w'
  | .other, w' => w.st.SameInput w'.st

def ConsoleOp.Edits (l : Line) : ConsoleOp → Line → Prop
  | .key c, l' => l' = l.key c
  | .read target n x, l' => l' = (l.read target n).dev ∧ (l.read target n).Exits target n x
  | .other, l' => l' = l

theorem console_step {w w' : KWorld} {e : ConsoleOp} (hstep : e.Runs w w') (h : w.st.input.Shows l) :
    ∃ l', e.Edits l l' ∧ w'.st.input.Shows l' := by
  cases e with
  | key c =>
    obtain ⟨p, hrun⟩ := hstep
    have hring := consoleKey_input (p := p) (w := w) c
    rw [hrun] at hring
    exact ⟨_, rfl, hring ▸ h.key c⟩
  | read target n x =>
    obtain ⟨p, hrun⟩ := hstep
    have hends := consoleLoop_input (p := p) (w := w) target n
    rw [hrun] at hends
    obtain ⟨hdev, hbytes, -, hleft⟩ := h.read target n
    refine ⟨_, ⟨rfl, ?_⟩, hends.ring ▸ hdev⟩
    rw [Took.Exits, ← hleft, ← hbytes]
    exact hends.exit x w' rfl
  | other => exact ⟨l, rfl, hstep ▸ h⟩

/-- **The kernel's console code is a line editor**, whatever other code runs in between. -/
theorem console_code_edits {w w' : KWorld} {es : List ConsoleOp} (h : w.st.input.Shows l) (hr : Trace ConsoleOp.Runs w es w') :
    ∃ l', Trace ConsoleOp.Edits l es l' ∧ w'.st.input.Shows l' :=
  trace_sim (Q := fun w l => w.st.input.Shows l) (fun _ _ _ _ hstep h => console_step hstep h) hr h

/-- a whole line is there, and CPU 0 has the locks -/
def lineWorld : KWorld := ⟨fun _ => some 0, { Kernel.boot with input := ⟨fun _ => 10, 0, 1, 1⟩ }⟩

/-- x, a backspace and y are typed; the line is read -/
def typedOps : List ConsoleOp := [.key 120, .key 8, .key 121, .read 5 5 (.ret 1)]

-- the run is evaluated
attribute [local semireducible] uint32

theorem console_code_edits_typedOps : ∃ w', Trace ConsoleOp.Runs lineWorld typedOps w' ∧
    ∃ l', Trace ConsoleOp.Edits ⟨[10], [10], []⟩ typedOps l' ∧ w'.st.input.Shows l' := by
  have hw : lineWorld.st.input.Shows ⟨[10], [10], []⟩ := ⟨by decide, rfl, rfl, by decide, rfl, not_mem_nil⟩
  obtain ⟨w', hrun⟩ : ∃ w', Trace ConsoleOp.Runs lineWorld typedOps w' := by
    constructor
    apply Trace.cons ⟨0, rfl⟩
    apply Trace.cons ⟨0, rfl⟩
    apply Trace.cons ⟨0, rfl⟩
    exact .cons ⟨0, rfl⟩ (.nil _)
  exact ⟨w', hrun, console_code_edits hw hrun⟩

end Xv6
