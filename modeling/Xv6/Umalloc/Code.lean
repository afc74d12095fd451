/-
The user-space allocator (umalloc.c): free, morecore and malloc.

- The memory is that of the headers: `ptr a` and `size a` are the two fields of a Header at address a. A Header takes 8 bytes.
- An access to a header that is not mapped is a fault, and the process is killed. `stuck` is a loop that has gone round as often as
  it was given.
- `Sys`: where base is, and what the system does: sbrk, for the number in its argument's 32 bits, and which addresses are mapped.
- Pointers and sizes are 32-bit words. freep is 0 before the first call.
-/
import Xv6.Lib.Words
import Xv6.Lib.Fallible

namespace Xv6.Umalloc

open Function

structure St (κ : Type) where
  ptr : ℕ → ℕ
  size : ℕ → ℕ
  freep : ℕ
  kern : κ

inductive Fault where
  | page (a : ℕ)
  | stuck
deriving DecidableEq, Repr

structure Sys (κ : Type) where
  base : ℕ
  sbrk : ℕ → κ → Option ℕ × κ
  valid : κ → ℕ → Bool

abbrev M (κ : Type) := StateT (St κ) (Except Fault)

variable {κ : Type} (S : Sys κ)

/-! ## Memory -/

/-- an access to the header at a -/
def touch (a : ℕ) : M κ Unit := do
  if S.valid (← get).kern a = true then return () else throw (.page a)

/-- `a->s.ptr` -/
def getPtr (a : ℕ) : M κ ℕ := do
  touch S a
  return (← get).ptr a

/-- `a->s.size` -/
def getSize (a : ℕ) : M κ ℕ := do
  touch S a
  return (← get).size a

def setPtr (a v : ℕ) : M κ Unit := do
  touch S a
  modify fun s => { s with ptr := update s.ptr a v }

def setSize (a v : ℕ) : M κ Unit := do
  touch S a
  modify fun s => { s with size := update s.size a v }

def setFreep (v : ℕ) : M κ Unit := modify fun s => { s with freep := v }

/-- `a + n` on pointers to headers -/
def addUnits (a n : ℕ) : ℕ := uint32 (a + 8 * n)

/-! ## free -/

/-- free's loop: the place in the list for the block bp, from p on -/
def search (bp : ℕ) : ℕ → ℕ → M κ ℕ
  | 0, _ => throw .stuck
  | n + 1, p => do
    let q ← getPtr S p
    if p < bp ∧ bp < q then return p
    else if q ≤ p ∧ (p < bp ∨ bp < q) then return p
    else search bp n q

/-- the block bp takes over the block behind it -/
def joinUpper (p bp : ℕ) : M κ Unit := do
  let q ← getPtr S p
  let n ← getSize S bp
  if addUnits bp n = q then
    let m ← getSize S q
    setSize S bp (uint32 (n + m))
    let r ← getPtr S q
    setPtr S bp r
  else setPtr S bp q

/-- the block p takes over bp, or is linked to it -/
def joinLower (p bp : ℕ) : M κ Unit := do
  let n ← getSize S p
  if addUnits p n = bp then
    let m ← getSize S bp
    setSize S p (uint32 (n + m))
    let r ← getPtr S bp
    setPtr S p r
  else setPtr S p bp

/-- free, given the address of the header -/
def freeBlock (fuel bp : ℕ) : M κ Unit := do
  let p ← search S bp fuel (← get).freep
  joinUpper S p bp
  joinLower S p bp
  setFreep p

/-- `free(ap)` -/
def free (fuel ap : ℕ) : M κ Unit := freeBlock S fuel (uint32 (ap + (2 ^ 32 - 8)))

/-! ## malloc -/

def sbrk (n : ℕ) : M κ (Option ℕ) := do
  let s ← get
  let r := S.sbrk n s.kern
  set { s with kern := r.2 }
  return r.1

/-- morecore; none is 0 -/
def morecore (fuel nu : ℕ) : M κ (Option ℕ) := do
  let nu := if nu < 4096 then 4096 else nu
  match ← sbrk S (uint32 (nu * 8)) with
  | none => return none
  | some hp =>
    setSize S hp nu
    freeBlock S fuel hp
    return some (← get).freep

/-- the units for nbytes bytes, with the header -/
def nunits (nbytes : ℕ) : ℕ := uint32 (nbytes + 7) / 8 + 1

/-- malloc takes nu units of the block p, which has n of them: the address of the header -/
def take (nu prevp p n : ℕ) : M κ ℕ := do
  if n = nu then
    let q ← getPtr S p
    setPtr S prevp q
    setFreep prevp
    return p
  else
    setSize S p (uint32 (n + (2 ^ 32 - nu)))
    let q := addUnits p (uint32 (n + (2 ^ 32 - nu)))
    setSize S q nu
    setFreep prevp
    return q

/-- malloc's loop: the address of a header, or none for 0 -/
def mallocLoop (nu : ℕ) : ℕ → ℕ → ℕ → M κ (Option ℕ)
  | 0, _, _ => throw .stuck
  | n + 1, prevp, p => do
    let sz ← getSize S p
    if nu ≤ sz then
      let h ← take S nu prevp p sz
      return some h
    else if p = (← get).freep then
      match ← morecore S n nu with
      | none => return none
      | some p =>
        let q ← getPtr S p
        mallocLoop nu n p q
    else
      let q ← getPtr S p
      mallocLoop nu n p q

/-- `base.s.ptr = freep = &base; base.s.size = 0` before the first search -/
def prepare : M κ Unit := do
  if (← get).freep = 0 then
    setPtr S S.base S.base
    setFreep S.base
    setSize S S.base 0
  else return ()

/-- **malloc**: 0 or a pointer behind the header -/
def malloc (fuel nbytes : ℕ) : M κ ℕ := do
  prepare S
  let prevp := (← get).freep
  let p ← getPtr S prevp
  match ← mallocLoop S (nunits nbytes) fuel prevp p with
  | none => return 0
  | some h => return addUnits h 1

end Xv6.Umalloc
