/-
Pipes (pipe.c): pipewrite, piperead and pipeclose as monitor code on p->lock.

Any number of processes make any of the three calls, each statement that touches the pipe a step, with sleep, wakeup and
kill as `Monitor` has them. The counters are 32-bit words that are never reset; the buffer is indexed by them modulo
PIPESIZE. pipeclose's kfree after the last close is left out: nobody has the pipe then.

`stored` and `delivered` are not in the source: all bytes pipewrite has stored and all bytes piperead has copied out, in
order.

Results:
- `pipe_fifo`: in every state at most PIPESIZE bytes are buffered, what was stored is what was delivered followed by what is
  buffered, and piperead with n > 0 returns 0 only from an empty pipe with its write end closed.
- `pipe_wakeups`: no wakeup is lost, unless a pipewrite gives up on a full pipe while a process waits in piperead. One
  that does leaves such a reader asleep.
- `killed_writer_strands_reader`: a killed process fills an empty pipe; the reader stays asleep.
-/
import Xv6.Lib.Monitor

namespace Xv6

open Monitor Runs Function List

/-! ## The code -/

abbrev PIPESIZE : ℕ := 512

theorem PIPESIZE_eq : PIPESIZE = 512 := rfl

structure Pipe where
  data : Fin PIPESIZE → UInt8
  nread : UInt32
  nwrite : UInt32
  readopen : Bool
  writeopen : Bool
  stored : List UInt8
  delivered : List UInt8

namespace Pipe

/-- the two channels, &p->nread and &p->nwrite -/
inductive Chan where
  | nread
  | nwrite
deriving DecidableEq

inductive Label where
  | outside
  /-- pipewrite(p, addr, n): the n bytes at addr -/
  | write (n : Int) (addr : List UInt8)
  | writeFor (n : Int) (rest : List UInt8)
  | writeFull (n : Int) (rest : List UInt8)
  | writeFail
  | writeWake (n : Int) (rest : List UInt8)
  | writeSleep (n : Int) (rest : List UInt8)
  | writeStore (n : Int) (b : UInt8) (rest : List UInt8)
  | writeEnd (n : Int)
  | writeReturn (n : Int)
  /-- piperead(p, addr, n) -/
  | read (n : Int)
  | readWhile (n : Int)
  | readEmpty (n : Int)
  | readFail
  | readSleep (n : Int)
  | readFor (n i : Int)
  | readWake (n i : Int)
  | readReturn (n i : Int)
  /-- pipeclose(p, writable) -/
  | close (writable : Bool)
  | closeSet (writable : Bool)
  | closeWake (writable : Bool)
  | closeReturn
deriving DecidableEq

variable (p : Pipe)

def slot (n : UInt32) : Fin PIPESIZE := ⟨n.toNat % PIPESIZE, Nat.mod_lt _ (by decide)⟩

/-- p->nwrite == p->nread + PIPESIZE -/
def full : Bool := p.nwrite == p.nread + 512

/-- p->nread == p->nwrite -/
def empty : Bool := p.nread == p.nwrite

/-- p->data[p->nwrite++ % PIPESIZE] = b -/
def store (b : UInt8) : Pipe :=
  { p with data := update p.data (slot p.nwrite) b, nwrite := p.nwrite + 1, stored := p.stored ++ [b] }

/-- addr[i] = p->data[p->nread++ % PIPESIZE] -/
def deliver : Pipe :=
  { p with nread := p.nread + 1, delivered := p.delivered ++ [p.data (slot p.nread)] }

def setClosed (writable : Bool) : Pipe :=
  if writable then { p with writeopen := false } else { p with readopen := false }

/-- the calls; pipewrite's buffer has its n bytes -/
def begins : Label → Bool
  | .write n addr => addr.length == n.toNat
  | .read _ | .close _ => true
  | _ => false

def act {ι : Type} : Label → Act ι Pipe Label Chan
  | .outside => .call fun _ l p => if begins l then some p else none
  | .write n addr => .acquire (.writeFor n addr)
  | .writeFor n [] => .access fun _ _ p => (p, .writeEnd n)
  | .writeFor n (b :: rest) => .access fun _ _ p => (p, if p.full then .writeFull n (b :: rest) else .writeStore n b rest)
  | .writeFull n rest => .access fun _ killed p => (p, if !p.readopen || killed then .writeFail else .writeWake n rest)
  | .writeFail => .release .outside
  | .writeWake n rest => .wakeup .nread (.writeSleep n rest)
  | .writeSleep n rest => .sleep .nwrite (.writeFor n rest)
  | .writeStore n b rest => .access fun _ _ p => (p.store b, .writeFor n rest)
  | .writeEnd n => .wakeup .nread (.writeReturn n)
  | .writeReturn _ => .release .outside
  | .read n => .acquire (.readWhile n)
  | .readWhile n => .access fun _ _ p => (p, if p.empty && p.writeopen then .readEmpty n else .readFor n 0)
  | .readEmpty n => .access fun _ killed p => (p, if killed then .readFail else .readSleep n)
  | .readFail => .release .outside
  | .readSleep n => .sleep .nread (.readWhile n)
  | .readFor n i => .access fun _ _ p =>
      if i < n ∧ p.empty = false then (p.deliver, .readFor n (i + 1)) else (p, .readWake n i)
  | .readWake n i => .wakeup .nwrite (.readReturn n i)
  | .readReturn _ _ => .release .outside
  | .close w => .acquire (.closeSet w)
  | .closeSet w => .access fun _ _ p => (p.setClosed w, .closeWake w)
  | .closeWake w => .wakeup (if w then .nread else .nwrite) .closeReturn
  | .closeReturn => .release .outside

def code {ι : Type} : Code ι Pipe Label Chan Empty := ⟨act, nofun⟩

/-- pipealloc's pipe -/
def init : Pipe := ⟨fun _ => 0, 0, 0, true, true, [], []⟩

def boot {ι : Type} : St ι Pipe Label Chan := start init .outside

/-! ## The buffer as a queue -/

/-- the bytes from nread up to nwrite -/
def buffered : List UInt8 := (List.range (p.nwrite - p.nread).toNat).map fun k => p.data (slot (p.nread + UInt32.ofNat k))

/-- the counters count the two streams modulo 2^32, and the buffer holds what lies between them -/
structure Fifo : Prop where
  le : p.delivered.length ≤ p.stored.length
  room : p.stored.length ≤ p.delivered.length + PIPESIZE
  nread : p.nread = UInt32.ofNat p.delivered.length
  nwrite : p.nwrite = UInt32.ofNat p.stored.length
  before : p.delivered = p.stored.take p.delivered.length
  data : ∀ k, p.delivered.length ≤ k → k < p.stored.length → p.stored[k]? = some (p.data (slot (UInt32.ofNat k)))

variable {p}

/-- the buffer's size divides 2^32, so the wrap-around of a counter moves no byte -/
theorem slot_ofNat (k : ℕ) : (slot (UInt32.ofNat k)).val = k % PIPESIZE := by
  show (UInt32.ofNat k).toNat % PIPESIZE = k % PIPESIZE
  rw [UInt32.toNat_ofNat']
  exact Nat.mod_mod_of_dvd k (by decide)

theorem slot_ne {j k : ℕ} (h1 : j < k) (h2 : k < j + PIPESIZE) : slot (UInt32.ofNat j) ≠ slot (UInt32.ofNat k) := by
  intro e
  have hv := congrArg Fin.val e
  rw [slot_ofNat, slot_ofNat] at hv
  simp only [PIPESIZE_eq] at hv h2
  omega

/-- counters of streams less than 2^32 apart are equal only if the streams are as long -/
theorem ofNat_inj {a b : ℕ} (h1 : a ≤ b) (h2 : b < a + 2 ^ 32) : UInt32.ofNat a = UInt32.ofNat b ↔ a = b := by
  rw [← UInt32.toNat_inj, UInt32.toNat_ofNat', UInt32.toNat_ofNat']
  omega

theorem full_iff (h : p.Fifo) : p.full = true ↔ p.stored.length = p.delivered.length + PIPESIZE := by
  have hr := h.room
  have hle := h.le
  have e : p.nread + 512 = UInt32.ofNat (p.delivered.length + PIPESIZE) := by
    rw [h.nread, UInt32.ofNat_add]; rfl
  have := PIPESIZE_eq
  rw [full, beq_iff_eq, e, h.nwrite, ofNat_inj hr (by omega)]

theorem empty_iff (h : p.Fifo) : p.empty = true ↔ p.delivered.length = p.stored.length := by
  have hr := h.room
  have := PIPESIZE_eq
  rw [empty, beq_iff_eq, h.nread, h.nwrite, ofNat_inj h.le (by omega)]

theorem fifo_init : init.Fifo where
  le := le_rfl
  room := Nat.zero_le _
  nread := rfl
  nwrite := rfl
  before := rfl
  data k _ hk := absurd hk (Nat.not_lt_zero k)

theorem fifo_store (h : p.Fifo) (hf : p.full = false) (b : UInt8) : (p.store b).Fifo := by
  have hne : p.stored.length ≠ p.delivered.length + PIPESIZE := fun e => by simp [(full_iff h).2 e] at hf
  have hr := h.room
  have hle := h.le
  have hlen : (p.store b).stored.length = p.stored.length + 1 := length_append
  refine ⟨?_, ?_, h.nread, ?_, ?_, fun k h1 h2 => ?_⟩
  · rw [hlen]; exact hle.trans (Nat.le_succ _)
  · rw [hlen]; show _ ≤ p.delivered.length + PIPESIZE; omega
  · rw [hlen, UInt32.ofNat_add, ← h.nwrite]; rfl
  · show p.delivered = (p.stored ++ [b]).take p.delivered.length
    rw [take_append_of_le_length hle]
    exact h.before
  · show (p.stored ++ [b])[k]? = some (update p.data (slot p.nwrite) b (slot (UInt32.ofNat k)))
    rw [h.nwrite]
    have hk : k ≤ p.stored.length := by rw [hlen] at h2; omega
    rcases hk.lt_or_eq with hk | rfl
    · -- an older byte lies in another place of the buffer
      have hd : p.delivered.length ≤ k := h1
      rw [update_of_ne (slot_ne hk (by omega)), List.getElem?_append_left hk]
      exact h.data k hd hk
    · rw [update_self, List.getElem?_concat_length]

theorem fifo_deliver (h : p.Fifo) (he : p.empty = false) : p.deliver.Fifo := by
  have hne : p.delivered.length ≠ p.stored.length := fun e => by simp [(empty_iff h).2 e] at he
  have hr := h.room
  have hle := h.le
  have hlt : p.delivered.length < p.stored.length := by omega
  have hlen : p.deliver.delivered.length = p.delivered.length + 1 := length_append
  refine ⟨?_, ?_, ?_, h.nwrite, ?_, fun k h1 h2 => ?_⟩
  · rw [hlen]; exact hlt
  · rw [hlen]; show p.stored.length ≤ _; omega
  · rw [hlen, UInt32.ofNat_add, ← h.nread]; rfl
  · rw [hlen]
    show p.delivered ++ [p.data (slot p.nread)] = p.stored.take (p.delivered.length + 1)
    rw [take_add_one, h.data _ le_rfl hlt, ← h.before, h.nread]
    rfl
  · exact h.data k (by rw [hlen] at h1; omega) h2

theorem fifo_setClosed (h : p.Fifo) (w : Bool) : (p.setClosed w).Fifo := by
  cases w <;> exact ⟨h.le, h.room, h.nread, h.nwrite, h.before, h.data⟩

theorem count_eq (h : p.Fifo) : (p.nwrite - p.nread).toNat = p.stored.length - p.delivered.length := by
  have hr := h.room
  have hle := h.le
  have e : p.nwrite = UInt32.ofNat (p.stored.length - p.delivered.length) + p.nread := by
    rw [h.nwrite, h.nread, ← UInt32.ofNat_add, Nat.sub_add_cancel hle]
  have := PIPESIZE_eq
  rw [e, UInt32.add_sub_cancel, UInt32.toNat_ofNat']
  omega

/-- what was stored is what was delivered, and then what is buffered -/
theorem stored_eq (h : p.Fifo) : p.stored = p.delivered ++ p.buffered := by
  have hdrop : p.buffered = p.stored.drop p.delivered.length := by
    refine ext_getElem? fun k => ?_
    rw [buffered, List.getElem?_map, count_eq h, List.getElem?_drop]
    by_cases hk : k < p.stored.length - p.delivered.length
    · rw [List.getElem?_range hk, h.data _ (by omega) (by omega), h.nread]
      simp only [Option.map_some, UInt32.ofNat_add]
    · rw [List.getElem?_eq_none (by simpa using hk), List.getElem?_eq_none (by omega)]
      rfl
  nth_rewrite 1 [← take_append_drop p.delivered.length p.stored]
  rw [hdrop, ← h.before]

/-! ## What holds at the labels -/

def held : Label → Prop
  | .outside | .write _ _ | .read _ | .close _ => False
  | _ => True

/-- what the code has tested since it took the lock -/
def tested : Label → Pipe → Prop
  | .writeFull _ _, p => p.full = true
  | .writeWake _ _, p | .writeSleep _ _, p => p.full = true ∧ p.readopen = true
  | .writeStore _ _ _, p => p.full = false
  | .readEmpty _, p | .readSleep _, p => p.empty = true ∧ p.writeopen = true
  | .readFor _ i, p => 0 ≤ i ∧ (i = 0 → p.empty = true → p.writeopen = false)
  | .readWake n i, p | .readReturn n i, p => i = 0 → 0 < n → p.empty = true ∧ p.writeopen = false
  | _, _ => True

variable {ι : Type} {s : St ι Pipe Label Chan}

def atLabel (_ : ι) (l : Label) (p : Pipe) : Prop := p.Fifo ∧ tested l p

/-- an access that only tests -/
theorem keeps_test {l : Label} (hl : held l) {f : Bool → Pipe → Label}
    (h : ∀ b p, tested l p → held (f b p) ∧ tested (f b p) p) :
    KeepsAct held Fifo atLabel (fun _ _ _ => True) l (.access fun (_ : ι) b p => (p, f b p) : Act ι Pipe Label Chan) :=
  ⟨hl, fun _ b p hp => ⟨(h b p hp.2).1, ⟨hp.1, (h b p hp.2).2⟩, fun _ _ _ _ => trivial⟩⟩

theorem keeps_release {l : Label} (hl : held l) :
    KeepsAct held Fifo atLabel (fun _ _ _ => True) l (.release .outside : Act ι Pipe Label Chan) :=
  ⟨hl, id, fun _ _ hp => ⟨hp.1, trivial⟩⟩

theorem keeps : Keeps held Fifo atLabel (fun _ _ _ => True) (code : Code ι Pipe Label Chan Empty) where
  act l := by
    cases l with
    | outside =>
      refine ⟨id, fun i next d d' he => ?_⟩
      simp only [Option.ite_none_right_eq_some, Option.some.injEq] at he
      obtain ⟨hb, rfl⟩ := he
      refine ⟨fun hn => ?_, id, fun _ => trivial, fun j _ m => ⟨id, id⟩⟩
      cases next <;> simp_all [held, begins]
    | write n addr => exact ⟨id, trivial, fun i d h _ => ⟨h, trivial⟩⟩
    | writeFor n rest =>
      cases rest with
      | nil => exact keeps_test (by exact trivial) fun b p _ => ⟨trivial, trivial⟩
      | cons c rest =>
        refine keeps_test (by exact trivial) fun b p _ => ?_
        cases hf : p.full
        · exact ⟨trivial, hf⟩
        · exact ⟨trivial, hf⟩
    | writeFull n rest =>
      refine keeps_test (by exact trivial) fun b p hp => ?_
      cases hr : p.readopen
      · exact ⟨trivial, trivial⟩
      · cases b
        · exact ⟨trivial, hp, hr⟩
        · exact ⟨trivial, trivial⟩
    | writeFail => exact keeps_release trivial
    | writeWake n rest => exact ⟨trivial, trivial, fun i d h => h⟩
    | writeSleep n rest => exact ⟨trivial, trivial, fun i d h => ⟨h.1, trivial⟩, fun i d h _ => ⟨h, trivial⟩⟩
    | writeStore n c rest =>
      exact ⟨trivial, fun i b d h => ⟨trivial, ⟨fifo_store h.1 h.2 c, trivial⟩, fun _ _ _ _ => trivial⟩⟩
    | writeEnd n => exact ⟨trivial, trivial, fun i d h => ⟨h.1, trivial⟩⟩
    | writeReturn n => exact keeps_release trivial
    | read n => exact ⟨id, trivial, fun i d h _ => ⟨h, trivial⟩⟩
    | readWhile n =>
      refine keeps_test (by exact trivial) fun b p _ => ?_
      cases he : p.empty
      · exact ⟨trivial, le_rfl, fun _ hc => by rw [he] at hc; cases hc⟩
      · cases hw : p.writeopen
        · exact ⟨trivial, le_rfl, fun _ _ => hw⟩
        · exact ⟨trivial, he, hw⟩
    | readEmpty n =>
      refine keeps_test (by exact trivial) fun b p hp => ?_
      cases b
      · exact ⟨trivial, hp⟩
      · exact ⟨trivial, trivial⟩
    | readFail => exact keeps_release trivial
    | readSleep n => exact ⟨trivial, trivial, fun i d h => ⟨h.1, trivial⟩, fun i d h _ => ⟨h, trivial⟩⟩
    | readFor n i =>
      refine ⟨trivial, fun j b d ⟨h, h0, hi⟩ => ?_⟩
      by_cases hc : i < n ∧ d.empty = false
      · simp only [hc, and_self, if_true]
        exact ⟨trivial, ⟨fifo_deliver h hc.2, by omega, fun e => by omega⟩, fun _ _ _ _ => trivial⟩
      · simp only [hc, if_false]
        refine ⟨trivial, ⟨h, fun e hn => ?_⟩, fun _ _ _ _ => trivial⟩
        have he : d.empty = true := by
          by_contra hne
          exact hc ⟨by omega, by simpa using hne⟩
        exact ⟨he, hi e he⟩
    | readWake n i => exact ⟨trivial, trivial, fun i d h => h⟩
    | readReturn n i => exact keeps_release trivial
    | close w => exact ⟨id, trivial, fun i d h _ => ⟨h, trivial⟩⟩
    | closeSet w =>
      exact ⟨trivial, fun i b d h => ⟨trivial, ⟨fifo_setClosed h.1 w, trivial⟩, fun _ _ _ _ => trivial⟩⟩
    | closeWake w => exact ⟨trivial, trivial, fun i d h => ⟨h.1, trivial⟩⟩
    | closeReturn => exact keeps_release trivial
  env e := nomatch e

theorem kept_boot : Monitor.Kept held Fifo atLabel (fun _ _ _ => True) (boot : St ι Pipe Label Chan) :=
  kept_start fifo_init id fun _ => trivial

/-- the queue is there in every state, whoever has the lock -/
theorem fifo_of_kept (h : Monitor.Kept held Fifo atLabel (fun _ _ _ => True) s) : s.data.Fifo :=
  data_of_kept h id fun _ _ _ ha => ha.1

variable [DecidableEq ι]

/-- **Pipe FIFO.** In every state of every interleaving, kills included, and across the counters' wrap-around. -/
theorem pipe_fifo (ops : List (Monitor.Op ι Label Empty)) :
    let s := Monitor.run code (boot : St ι Pipe Label Chan) ops
    (s.data.nwrite - s.data.nread).toNat ≤ PIPESIZE ∧ s.data.stored = s.data.delivered ++ s.data.buffered ∧
      ∀ i n, s.pos i = .run (.readReturn n 0) → 0 < n → s.data.empty = true ∧ s.data.writeopen = false := by
  intro s
  have hk : Monitor.Kept held Fifo atLabel (fun _ _ _ => True) s := kept_run keeps kept_boot ops
  have hF := fifo_of_kept hk
  refine ⟨?_, stored_eq hF, fun i n hi hn => ?_⟩
  · have hr := hF.room
    rw [count_eq hF]
    omega
  · have hf := hk.fact i
    rw [hi] at hf
    exact (hf.1 trivial).2 rfl hn

/-! ## Debts -/

/-- what a process sleeps for: a reader for a byte or the writers' end, a writer for room or the readers' end -/
def waits : Chan → Pipe → Prop
  | .nread, p => p.empty = true ∧ p.writeopen = true
  | .nwrite, p => p.full = true ∧ p.readopen = true

/-- the call may have ended what processes on the channel sleep for, and has not called wakeup since -/
def owed : Label → Chan → Prop
  | .writeFor _ _, .nread | .writeFull _ _, .nread | .writeWake _ _, .nread | .writeStore _ _ _, .nread => True
  | .writeEnd _, .nread | .closeWake true, .nread => True
  | .readFor _ _, .nwrite | .readWake _ _, .nwrite | .closeWake false, .nwrite => True
  | _, _ => False

/-- pipewrite gives up on a full pipe: it returns without a wakeup -/
def quiet : Label → Bool → Pipe → Chan → Prop
  | .writeFull _ _, killed, p, .nread => p.readopen = false ∨ killed = true
  | _, _, _, _ => False

omit [DecidableEq ι] in
/-- an access that leaves the data and the debts as they are -/
theorem pays_same {l : Label} {f : Bool → Pipe → Label} (h : ∀ b p ch, owed l ch → owed (f b p) ch ∨ quiet l b p ch) :
    PaysAct atLabel waits owed quiet l (.access fun (_ : ι) b p => (p, f b p) : Act ι Pipe Label Chan) := by
  intro i b p _ ch hn
  by_cases ho : owed l ch
  · exact .inl ((h b p ch ho).resolve_left hn)
  · exact .inr ⟨ho, id⟩

omit [DecidableEq ι] in
theorem pays : Pays atLabel waits owed quiet (code : Code ι Pipe Label Chan Empty) where
  act l := by
    cases l with
    | outside =>
      intro i next d d' he ch hw
      simp only [Option.ite_none_right_eq_some, Option.some.injEq] at he
      rwa [← he.2]
    | write n addr | read n | close w => trivial
    | writeFail | writeReturn n | readFail | readReturn n i | closeReturn => exact fun ch => id
    | writeFor n rest =>
      cases rest with
      | nil => exact pays_same fun b p ch ho => .inl (by cases ch <;> exact ho)
      | cons c rest => exact pays_same fun b p ch ho => .inl (by cases ch <;> split_ifs <;> exact ho)
    | writeFull n rest =>
      refine pays_same fun b p ch ho => ?_
      cases ch with
      | nwrite => exact absurd ho id
      | nread =>
        cases hr : p.readopen
        · exact .inr (.inl hr)
        · cases b
          · exact .inl trivial
          · exact .inr (.inr rfl)
    | writeWake n rest => exact fun c hc => by cases c <;> first | exact .inl rfl | exact absurd hc id
    | writeSleep n rest => exact ⟨fun i d h => h.2, fun c => id⟩
    | writeStore n c rest =>
      intro i b d h ch hn
      cases ch with
      | nread => exact absurd trivial hn
      | nwrite => exact .inr ⟨id, fun hw => by have := hw.1; rw [h.2] at this; cases this⟩
    | writeEnd n => exact fun c hc => by cases c <;> first | exact .inl rfl | exact absurd hc id
    | readWhile n | readEmpty n => exact pays_same fun b p ch ho => absurd ho id
    | readSleep n => exact ⟨fun i d h => h.2, fun c => id⟩
    | readFor n i =>
      intro j b d h ch hn
      by_cases hc : i < n ∧ d.empty = false
      · simp only [hc, and_self, if_true] at hn ⊢
        cases ch with
        | nwrite => exact absurd trivial hn
        | nread => exact .inr ⟨id, fun hw => by have := hw.1; rw [hc.2] at this; cases this⟩
      · simp only [hc, if_false] at hn ⊢
        cases ch with
        | nwrite => exact absurd trivial hn
        | nread => exact .inr ⟨id, id⟩
    | readWake n i => exact fun c hc => by cases c <;> first | exact .inl rfl | exact absurd hc id
    | closeSet w =>
      intro i b d h ch hn
      cases w <;> cases ch <;> first | exact absurd trivial hn | exact .inr ⟨id, id⟩
    | closeWake w => exact fun c hc => by cases w <;> cases c <;> first | exact .inl rfl | exact absurd hc id
  env e := nomatch e

/-! ## No lost wakeup -/

/-- process i is in pipewrite on a full pipe and gives up: it was killed, or the read end is closed -/
def givesUp (s : St ι Pipe Label Chan) (i : ι) : Bool :=
  match s.pos i with
  | .run (.writeFull _ _) => !s.data.readopen || s.killed i
  | _ => false

/-- the step is not a pipewrite that gives up on a full pipe while a process waits in piperead -/
def NotSilent (s : St ι Pipe Label Chan) : Monitor.Op ι Label Empty → Prop
  | .go i => givesUp s i = true → ∀ j, ¬ (s.pos j).waitsOn .nread
  | .call _ _ | .kill _ => True

instance decidableWaitsOn (ch : Chan) : (q : Pos Label Chan) → Decidable (q.waitsOn ch)
  | .nodding c _ => inferInstanceAs (Decidable (c = ch))
  | .asleep c _ => inferInstanceAs (Decidable (c = ch))
  | .run _ | .dozing _ _ | .woken _ | .rising _ | .back _ | .waking _ | .waked _ => .isFalse id

instance [Fintype ι] (s : St ι Pipe Label Chan) : (op : Monitor.Op ι Label Empty) → Decidable (NotSilent s op)
  | .go i => inferInstanceAs (Decidable (givesUp s i = true → ∀ j, ¬ (s.pos j).waitsOn .nread))
  | .call _ _ | .kill _ => .isTrue trivial

omit [DecidableEq ι] in
theorem calm_of_notSilent {op : Monitor.Op ι Label Empty} (h : NotSilent s op) :
    Calm quiet code s op := by
  cases op with
  | go i =>
    intro l f hp _ ch hq
    cases l <;> cases ch <;> simp only [quiet] at hq
    refine h ?_
    simp only [givesUp, hp]
    rcases hq with e | e <;> simp [e]
  | call i l | kill i => trivial
  | env e => exact nomatch e

theorem sound_notSilent {ops : List (Monitor.Op ι Label Empty)} (ha : Along (Monitor.step code) NotSilent boot ops) :
    Sound waits owed held Fifo atLabel (fun _ _ _ => True) (Monitor.run code (boot : St ι Pipe Label Chan) ops) := by
  have hboot : Sound waits owed held Fifo atLabel (fun _ _ _ => True) (boot : St ι Pipe Label Chan) :=
    sound_start fifo_init id fun _ => trivial
  exact sound_along keeps pays hboot (along_mono (fun _ _ => calm_of_notSilent) ha)

omit [DecidableEq ι] in
theorem not_empty_of_full {p : Pipe} (h : p.Fifo) (hf : p.full = true) : p.empty = false := by
  have h1 := (full_iff h).1 hf
  cases he : p.empty
  · rfl
  · have h2 := (empty_iff h).1 he
    have := PIPESIZE_eq
    omega

/-- a silent step strands the reader: three steps later it is SLEEPING and the pipe is full -/
theorem silent_strands (hk : Monitor.Kept held Fifo atLabel (fun _ _ _ => True) s)
    {op : Monitor.Op ι Label Empty} (h : ¬ NotSilent s op) : ∃ rest, (Monitor.run code s (op :: rest)).lock = none ∧
      ∃ j l, (Monitor.run code s (op :: rest)).pos j = .asleep .nread l ∧ (Monitor.run code s (op :: rest)).data.empty = false := by
  cases op with
  | call i l | kill i => exact absurd trivial h
  | env e => exact nomatch e
  | go i =>
    simp only [NotSilent, not_forall, not_not] at h
    obtain ⟨hgive, j, hj⟩ := h
    obtain ⟨n, rest, hp⟩ : ∃ n rest, s.pos i = .run (.writeFull n rest) := by
      unfold givesUp at hgive
      split at hgive
      · exact ⟨_, _, by assumption⟩
      · cases hgive
    have hf := hk.fact i
    rw [hp] at hf
    obtain ⟨hF, hfull⟩ := hf.1 trivial
    have hne : j ≠ i := by
      rintro rfl
      rw [hp] at hj
      exact hj
    have hcond : (!s.data.readopen || s.killed i) = true := by simpa only [givesUp, hp] using hgive
    have h1 : Monitor.step code s (.go i) = s.move i (.run .writeFail) := by
      simp only [Monitor.step, St.go, hp, code, act, St.exec, hcond, if_true]
      rfl
    have h2 : Monitor.step code (s.move i (.run .writeFail)) (.go i) = { s.move i (.run .outside) with lock := none } := by
      simp [Monitor.step, St.go, code, act, St.exec, St.move]
    have hw : (({ s.move i (.run .outside) with lock := none } : St ι Pipe Label Chan).pos j).waitsOn .nread := by
      rwa [move_of_ne _ hne]
    obtain ⟨⟨l, hl⟩, hlock, hdata⟩ := go_waits (M := code) hw
    refine ⟨[.go i, .go j], ?_⟩
    simp only [Monitor.run, foldl_cons, foldl_nil, h1, h2]
    refine ⟨hlock, j, l, hl, ?_⟩
    rw [Monitor.step, hdata]
    exact not_empty_of_full hF hfull

/-- **No lost wakeup on pipes.** In every run without silent steps, while p->lock is free: a process SLEEPING in piperead
sleeps on an empty pipe with an open write end, a process SLEEPING in pipewrite on a full pipe with an open read end. From
every state of such a run a silent step leads to a reader SLEEPING on a pipe with bytes. -/
theorem pipe_wakeups (ops : List (Monitor.Op ι Label Empty)) (ha : Along (Monitor.step code) NotSilent boot ops) :
    let s := Monitor.run code (boot : St ι Pipe Label Chan) ops
    (s.lock = none → (∀ i l, s.pos i = .asleep .nread l → s.data.empty = true ∧ s.data.writeopen = true) ∧
      ∀ i l, s.pos i = .asleep .nwrite l → s.data.full = true ∧ s.data.readopen = true) ∧
    ∀ op, ¬ NotSilent s op → ∃ rest, (Monitor.run code s (op :: rest)).lock = none ∧
      ∃ i l, (Monitor.run code s (op :: rest)).pos i = .asleep .nread l ∧ (Monitor.run code s (op :: rest)).data.empty = false := by
  intro s
  have hs : Sound waits owed held Fifo atLabel (fun _ _ _ => True) s := sound_notSilent ha
  refine ⟨fun hl => ⟨fun i l hi => ?_, fun i l hi => ?_⟩, fun op hop => silent_strands hs.kept hop⟩
  · exact wait_of_asleep hs hl hi
  · exact wait_of_asleep hs hl hi

/-- process 0 reads from the empty pipe and sleeps -/
def readerSleeps : List (Monitor.Op (Fin 2) Label Empty) := [.call 0 (.read 1), .go 0, .go 0, .go 0, .go 0, .go 0, .go 0, .go 0]

/-- process 1 writes a byte and wakes it up; it takes the byte, reads again and sleeps again -/
def readsTwice : List (Monitor.Op (Fin 2) Label Empty) :=
  readerSleeps ++ .call 1 (.write 1 [7]) :: List.replicate 8 (.go 1) ++ List.replicate 10 (.go 0) ++ readerSleeps

theorem pipe_wakeups_readsTwice :
    let s := Monitor.run code (boot : St (Fin 2) Pipe Label Chan) readsTwice
    s.data.delivered = [7] ∧ s.pos 0 = .asleep .nread (.readWhile 1) ∧ s.data.empty = true ∧ s.data.writeopen = true := by
  intro s
  have ha : Along (Monitor.step code) NotSilent (boot : St (Fin 2) Pipe Label Chan) readsTwice := by decide +kernel
  have hp : s.pos 0 = .asleep .nread (.readWhile 1) := by decide +kernel
  exact ⟨by decide +kernel, hp, ((pipe_wakeups readsTwice ha).1 (by decide +kernel)).1 0 _ hp⟩

/-- the reader sleeps, and process 1, killed on the way, writes 513 bytes -/
def killedWriterRun : List (Monitor.Op (Fin 2) Label Empty) :=
  readerSleeps ++ [.call 1 (.write 513 (List.replicate 513 7)), .kill 1] ++ List.replicate 1028 (.go 1)

theorem killed_writer_strands_reader : (Monitor.run code boot killedWriterRun).lock = none ∧
    (Monitor.run code boot killedWriterRun).ptable = none ∧ (Monitor.run code boot killedWriterRun).pos 1 = .run .outside ∧
    (Monitor.run code boot killedWriterRun).pos 0 = .asleep .nread (.readWhile 1) ∧
    (Monitor.run code boot killedWriterRun).data.empty = false ∧ (Monitor.run code boot killedWriterRun).data.writeopen = true := by
  decide +kernel

end Pipe

end Xv6
