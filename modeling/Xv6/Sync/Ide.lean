/-
The disk driver (ide.c): iderw and ideintr as monitor code on idelock, against the memory disk's iderw (memide.c).

Any number of processes call iderw, each on a buffer it has locked, with whatever contents and flags it gave the buffer
before the call. The disk (`Event.complete`) finishes the request it was started on at any time and raises one interrupt
for it; ideintr runs then. The buffers `β` and the contents `Block` of a block are arbitrary. A call that fails iderw's
tests panics before it touches the queue, so it is not a step.

Not in the source: `owner`, the process inside iderw with the buffer; who has taken the interrupt; `active`, the buffer
that ideintr has taken off the queue and not finished yet; and the requests so far, in order, as they were appended to the
queue, started, served by the disk and completed by ideintr.

`transfer` and `replay` are what the requests should do to the disks and the buffers, one after the other.
-/
import Xv6.Lib.Monitor

namespace Xv6

open Monitor Runs Function

abbrev FSSIZE : ℕ := 1000

/-- the fields of a buf that the drivers use; the flags are B_VALID and B_DIRTY -/
structure Buf (Block : Type) where
  valid : Bool
  dirty : Bool
  dev : ℕ
  blockno : ℕ
  data : Block

/-- (flags & (B_VALID|B_DIRTY)) == B_VALID -/
def Buf.synced {Block : Type} (b : Buf Block) : Bool := b.valid && !b.dirty

/-! ## The memory disk -/

namespace Memide

variable {β Block : Type} [DecidableEq β]

structure Mem (β Block : Type) where
  disk : ℕ → Block
  buf : β → Buf Block

/-- memide.c's iderw on a disk of disksize blocks -/
def iderw (disksize : ℕ) (m : Mem β Block) (b : β) : Except String (Mem β Block) :=
  if (m.buf b).synced then .error "iderw: nothing to do"
  else if (m.buf b).dev ≠ 1 then .error "iderw: request not for disk 1"
  else if disksize ≤ (m.buf b).blockno then .error "iderw: block out of range"
  else if (m.buf b).dirty then
    .ok { disk := update m.disk (m.buf b).blockno (m.buf b).data,
          buf := update m.buf b { m.buf b with dirty := false, valid := true } }
  else
    .ok { m with buf := update m.buf b { m.buf b with data := m.disk (m.buf b).blockno, valid := true } }

end Memide

/-! ## The driver -/

namespace Ide

/-- the disk's interrupt: `taken` once a handler has begun to run for it -/
inductive Irq (ι : Type) where
  | none
  | raised
  | taken (i : ι)

inductive Device (ι β Block : Type) where
  /-- ready, with what a read would find in the data register -/
  | ready (sector : Block) (irq : Irq ι)
  | busy (b : β) (r : Buf Block)

structure Driver (ι β Block : Type) where
  queue : List β
  buf : β → Buf Block
  havedisk1 : Bool
  /-- the blocks of the two disks -/
  disk : ℕ → ℕ → Block
  device : Device ι β Block
  owner : β → Option ι
  active : Option β
  appended : List (β × Buf Block)
  started : List (β × Buf Block)
  served : List (β × Buf Block)
  completed : List (β × Buf Block)

inductive Label (β Block : Type) where
  | outside
  /-- iderw(b) -/
  | rw (b : β) (r : Buf Block)
  | append (b : β)
  | first (b : β)
  | start (b : β)
  | loop (b : β)
  | wait (b : β)
  | done (b : β)
  /-- ideintr() -/
  | intr
  | pop
  | insl (b : β)
  | wake (b : β)
  | next
  | restart (b : β)
  | leave
  | panicked

inductive Event where
  | complete

variable {ι β Block : Type} [DecidableEq β]

/-- the request for buffer b, as it is now -/
def Driver.request (d : Driver ι β Block) (b : β) : β × Buf Block := (b, d.buf b)

/-- the interrupt has been taken care of -/
def Driver.handled (d : Driver ι β Block) : Driver ι β Block :=
  match d.device with
  | .ready sector _ => { d with device := .ready sector .none }
  | .busy _ _ => d

/-- idestart: `none` while idewait(0) spins -/
def idestart (d : Driver ι β Block) (b : β) : Option (Driver ι β Block) :=
  match d.device with
  | .busy _ _ => none
  | .ready _ _ => some { d with device := .busy b (d.buf b), started := d.started ++ [d.request b] }

/-- idestart from a label, which goes on at l'; it panics on a block number out of range -/
def startAt (l : Label β Block) (b : β) (l' : Label β Block) (d : Driver ι β Block) : Driver ι β Block × Label β Block :=
  if FSSIZE ≤ (d.buf b).blockno then (d, .panicked)
  else
    match idestart d b with
    | none => (d, l)
    | some d' => (d', l')

/-- ideintr: the data are there; set the flags -/
def finish (d : Driver ι β Block) (b : β) (data : Block) : Driver ι β Block :=
  { d with
    buf := update d.buf b { d.buf b with data := data, valid := true, dirty := false }
    active := none
    completed := d.completed ++ [d.request b] }

/-- ideintr: read the data if needed; `none` while idewait(1) spins -/
def transferred (d : Driver ι β Block) (b : β) : Option Block :=
  if (d.buf b).dirty then some (d.buf b).data
  else
    match d.device with
    | .ready sector _ => some sector
    | .busy _ _ => none

/-- iderw's tests, and the interrupt's arrival -/
def enter (i : ι) : Label β Block → Driver ι β Block → Option (Driver ι β Block)
  | .rw b r, d =>
    if d.owner b = none ∧ r.synced = false ∧ (r.dev ≠ 0 → d.havedisk1 = true) then
      some { d with buf := update d.buf b r, owner := update d.owner b (some i) }
    else none
  | .intr, d =>
    match d.device with
    | .ready sector .raised => some { d with device := .ready sector (.taken i) }
    | _ => none
  | _, _ => none

def act : Label β Block → Act ι (Driver ι β Block) (Label β Block) β
  | .outside => .call enter
  | .rw b _ => .acquire (.append b)
  | .append b => .access fun _ _ d => ({ d with queue := d.queue ++ [b], appended := d.appended ++ [d.request b] }, .first b)
  | .first b => .access fun _ _ d => (d, if d.queue.head? = some b then .start b else .loop b)
  | .start b => .access fun _ _ d => startAt (.start b) b (.loop b) d
  | .loop b => .access fun _ _ d => (d, if (d.buf b).synced then .done b else .wait b)
  | .wait b => .sleep b (.loop b)
  | .done b => .access fun _ _ d => ({ d with owner := update d.owner b none }, .leave)
  | .intr => .acquire .pop
  | .pop => .access fun _ _ d =>
      match d.queue with
      | [] => (d.handled, .leave)
      | b :: q => ({ d.handled with queue := q, active := some b }, .insl b)
  | .insl b => .access fun _ _ d =>
      match transferred d b with
      | some data => (finish d b data, .wake b)
      | none => (d, .insl b)
  | .wake b => .wakeup b .next
  | .next => .access fun _ _ d =>
      (d, match d.queue with
        | [] => .leave
        | b :: _ => .restart b)
  | .restart b => .access fun _ _ d => startAt (.restart b) b .leave d
  | .leave => .release .outside
  | .panicked => .access fun _ _ d => (d, .panicked)

/-- a write request changes its block -/
def setBlock (disk : ℕ → ℕ → Block) (r : Buf Block) : ℕ → ℕ → Block :=
  if r.dirty then update disk (r.dev % 2) (update (disk (r.dev % 2)) r.blockno r.data) else disk

/-- the disk transfers the block it was started on, and raises the interrupt -/
def complete (d : Driver ι β Block) : Driver ι β Block :=
  match d.device with
  | .ready _ _ => d
  | .busy b r =>
    { d with
      device := .ready (d.disk (r.dev % 2) r.blockno) .raised
      disk := setBlock d.disk r
      served := d.served ++ [(b, r)] }

def code : Code ι (Driver ι β Block) (Label β Block) β Event := ⟨act, fun _ => complete⟩

def init (havedisk1 : Bool) (disk : ℕ → ℕ → Block) (buf : β → Buf Block) : Driver ι β Block :=
  ⟨[], buf, havedisk1, disk, .ready (disk 0 0) .none, fun _ => none, none, [], [], [], []⟩

/-! ## The requests one after the other -/

/-- both disks and the buffers -/
structure World (β Block : Type) where
  disk : ℕ → ℕ → Block
  buf : β → Buf Block

/-- a request, made at once -/
def transfer (w : World β Block) (q : β × Buf Block) : World β Block where
  disk := setBlock w.disk q.2
  buf := update w.buf q.1 { q.2 with
    data := if q.2.dirty then q.2.data else w.disk (q.2.dev % 2) q.2.blockno, valid := true, dirty := false }

def replay (w : World β Block) (qs : List (β × Buf Block)) : World β Block := qs.foldl transfer w

@[simp] theorem replay_append (w : World β Block) (qs : List (β × Buf Block)) (q : β × Buf Block) :
    replay w (qs ++ [q]) = transfer (replay w qs) q := by simp [replay]

end Ide

end Xv6
