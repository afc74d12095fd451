/-
The redo log (log.c): commit and recovery, as code that reads blocks through the buffer cache and writes them to the disk.

- `Io`: what `bread` returns for each block (`view`), and the writes to the disk so far, in the order in which they were
  issued (`out`). A block written with `bwrite` is in the cache as well.
- The log area starts with the header block (`struct logheader`: the int n, then the block numbers), and log block i follows
  at start + i + 1.
- `log.lh` is the list of the logged block numbers: only the first n entries of the array are ever read.
-/
import Xv6.Lib.Words
import Xv6.Lib.Writes
import Xv6.Fs.Layout

namespace Xv6.Fs

open Bytes Writes

/-! ## Code over the cache and the disk -/

structure Io where
  view : Disk
  out : List (ℕ × Block)

abbrev BlockM := StateM Io

def bread (b : ℕ) : BlockM Block := return (← get).view b

def bwrite (b : ℕ) (data : Block) : BlockM Unit := modify fun s => ⟨Function.update s.view b data, s.out ++ [(b, data)]⟩

/-! ## The header block -/

/-- `lh->n` -/
def headN (b : Block) : Int := int32 (word 4 b 0)

/-- `lh->block[i]` -/
def headBlock (b : Block) (i : ℕ) : ℕ := word 4 b (4 + 4 * i)

/-- the first n entries of `lh->block` -/
def headBlocks (b : Block) : List ℕ := (List.range (headN b).toNat).map (headBlock b)

/-- `hb->block[i] = lh[i]` for the blocks of lh, from index i on -/
def putBlocks (b : Block) : List ℕ → ℕ → Block
  | [], _ => b
  | x :: xs, i => putBlocks (putWord 4 b (4 + 4 * i) x) xs (i + 1)

def putHead (b : Block) (lh : List ℕ) : Block := putBlocks (putWord 4 b 0 lh.length) lh 0

/-! ## log.c -/

/-- install_trans: the blocks of lh, from log block tail on -/
def installTrans (start : ℕ) : List ℕ → ℕ → BlockM Unit
  | [], _ => pure ()
  | b :: lh, tail => do
    let lbuf ← bread (start + tail + 1)
    let _dbuf ← bread b
    bwrite b lbuf
    installTrans start lh (tail + 1)

def readHead (start : ℕ) : BlockM (List ℕ) := do
  let buf ← bread start
  return headBlocks buf

def writeHead (start : ℕ) (lh : List ℕ) : BlockM Unit := do
  let buf ← bread start
  bwrite start (putHead buf lh)

def recoverFromLog (start : ℕ) : BlockM Unit := do
  let lh ← readHead start
  installTrans start lh 0
  writeHead start []

/-- write_log: the blocks of lh, to log block tail and on -/
def writeLog (start : ℕ) : List ℕ → ℕ → BlockM Unit
  | [], _ => pure ()
  | b :: lh, tail => do
    let _to ← bread (start + tail + 1)
    let src ← bread b
    bwrite (start + tail + 1) src
    writeLog start lh (tail + 1)

def commit (start : ℕ) (lh : List ℕ) : BlockM Unit := do
  if 0 < lh.length then
    writeLog start lh 0
    writeHead start lh
    installTrans start lh 0
    writeHead start []

/-! ## The writes of a run -/

/-- the writes that the code issues, started with the cache v -/
def writesOf (p : BlockM Unit) (v : Disk) : List (ℕ × Block) := (p.run ⟨v, []⟩).2.out

/-- the code returns and issues the writes ws -/
def Emits (p : BlockM Unit) (v : Disk) (ws : List (ℕ × Block)) : Prop :=
  ∀ out, p.run ⟨v, out⟩ = ((), ⟨apply ws v, out ++ ws⟩)

variable {p q : BlockM Unit} {v : Disk} {ws vs : List (ℕ × Block)}

theorem writesOf_eq (h : Emits p v ws) : writesOf p v = ws := by
  rw [writesOf, h []]
  rfl

theorem emits_pure (v : Disk) : Emits (pure ()) v [] := by
  intro out
  simp only [apply_nil, List.append_nil]
  rfl

theorem emits_bwrite (b : ℕ) (data : Block) (v : Disk) : Emits (bwrite b data) v [(b, data)] := fun _ => rfl

theorem emits_seq (hp : Emits p v ws) (hq : Emits q (apply ws v) vs) : Emits (do p; q) v (ws ++ vs) := by
  intro out
  have e : (do p; q : BlockM Unit).run ⟨v, out⟩ = q.run ⟨apply ws v, out ++ ws⟩ := by
    change (let r := p.run ⟨v, out⟩; q.run r.2) = _
    rw [hp out]
  rw [e, hq (out ++ ws), apply_append, List.append_assoc]

/-- a read and what follows -/
theorem emits_bread {f : Block → BlockM Unit} {b : ℕ} (h : Emits (f (v b)) v ws) : Emits (bread b >>= f) v ws :=
  fun out => h out

end Xv6.Fs
