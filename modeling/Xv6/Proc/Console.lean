/-
The kernel paths that sleep or wake sleepers under a lock of their own: consoleintr and consoleread (console.c) under
cons.lock, sys_sleep (sysproc.c) under tickslock; and procdump (proc.c), which the console calls.

- Characters are their codes. `getc` is the list of the codes it returns before a negative one.
- The ring's indices are 32-bit words.
- A path that calls sleep does not return there. `sysSleepLoop` and `consoleLoop` with their lock retaken are also what
  the process goes on with when it is woken.
- `consputc` writes to the screen and takes no lock: not modelled. Neither are the inode lock that consoleread gives up
  meanwhile and the user buffer it fills.
-/
import Xv6.Proc.Code

namespace Xv6

open LockProg

/-! ## The input ring -/

/-- `C(x)` -/
def ctrl (x : Char) : ℕ := x.toNat - '@'.toNat

/-- `input.buf[i % INPUT_BUF]` -/
def Input.at (s : Input) (i : ℕ) : ℕ := s.buf (Fin.ofNat INPUT_BUF i)

/-- `input.e-1` -/
def Input.last (s : Input) : ℕ := uint32 (s.e + (2 ^ 32 - 1))

/-- `a - b` on 32-bit words -/
def wordSub (a b : ℕ) : ℕ := uint32 (a + (2 ^ 32 - b))

/-- ^U: back to the last newline, at most n characters -/
def Input.killLine : ℕ → Input → Input
  | 0, s => s
  | n + 1, s => if s.e ≠ s.w ∧ s.at s.last ≠ '\n'.toNat then Input.killLine n { s with e := s.last } else s

def Input.backspace (s : Input) : Input := if s.e ≠ s.w then { s with e := s.last } else s

/-- `input.buf[input.e++ % INPUT_BUF] = c` -/
def Input.put (c : ℕ) (s : Input) : Input :=
  { s with buf := Function.update s.buf (Fin.ofNat INPUT_BUF s.e) c, e := uint32 (s.e + 1) }

/-- `input.w = input.e` -/
def Input.commit (s : Input) : Input := { s with w := s.e }

def modInput (f : Input → Input) : K Unit := writes fun _ k => { k with input := f k.input }

/-- `&input.r` -/
def inputChan : Chan := .obj 0

/-! ## consoleintr -/

/-- `c == '\r' ? '\n' : c` -/
def newline (c : ℕ) : ℕ := if c = '\r'.toNat then '\n'.toNat else c

/-- a typed character that is no editing key; a full line is handed to the readers -/
def consoleChar (c : ℕ) : K Unit := do
  let s := (← kernel).input
  if c ≠ 0 ∧ wordSub s.e s.r < INPUT_BUF then
    modInput (Input.put (newline c))
    let s := (← kernel).input
    if newline c = '\n'.toNat ∨ newline c = ctrl 'D' ∨ s.e = uint32 (s.r + INPUT_BUF) then
      modInput Input.commit
      wakeup inputChan

/-- one turn of consoleintr's switch -/
def consoleKey (c : ℕ) : K Unit :=
  if c = ctrl 'P' then pure ()
  else if c = ctrl 'U' then modInput fun s => s.killLine (wordSub s.e s.w)
  else if c = ctrl 'H' ∨ c = 127 then modInput Input.backspace
  else consoleChar c

/-- depth: how many return addresses are on a sleeping process's kernel stack -/
def procdump (depth : Slot → ℕ) : K Unit :=
  forEach slots fun i => do
    let p ← getProc i
    if p.state ≠ .unused then
      cprintf
      if p.state = .sleeping then forEach (List.range (min (depth i) 10)) fun _ => cprintf
      cprintf

def consoleintr (getc : List ℕ) (depth : Slot → ℕ) : K Unit := do
  acquire .cons
  forEach getc consoleKey
  release .cons
  if ctrl 'P' ∈ getc then procdump depth

/-! ## consoleread -/

/-- `input.r++` -/
def Input.next (s : Input) : Input := { s with r := uint32 (s.r + 1) }

/-- consoleread's loop with cons.lock held, n bytes still wanted -/
def consoleLoop (target : ℕ) : ℕ → K Exit
  | 0 => do
    release .cons
    return .ret target
  | n + 1 => do
    let s := (← kernel).input
    if s.r = s.w then
      if (← getProc (← curproc)).killed ≠ 0 then
        release .cons
        return .ret (-1)
      sleep inputChan (some .cons) (.consoleread (n + 1) target)
      return .switched
    let c := s.at s.r
    if c = ctrl 'D' then
      -- an end of file after some bytes is left for the next call
      if ¬ n + 1 < target then modInput Input.next
      release .cons
      return .ret (target - (n + 1))
    modInput Input.next
    if c = '\n'.toNat then
      release .cons
      return .ret (target - n)
    consoleLoop target n

/-- consoleread, from its start or from a wakeup -/
def consoleread (n target : ℕ) : K Exit := do
  acquire .cons
  consoleLoop target n

/-! ## sys_sleep -/

/-- sys_sleep's loop with tickslock held -/
def sysSleepLoop (ticks0 n : ℕ) : K Exit := do
  if wordSub (← kernel).ticks ticks0 < n then
    if (← getProc (← curproc)).killed ≠ 0 then
      release .ticks
      return .ret (-1)
    sleep .ticks (some .ticks) (.sysSleep ticks0 n)
    return .switched
  release .ticks
  return .ret 0

def sysSleep (n : ℕ) : K Exit := do
  acquire .ticks
  sysSleepLoop (← kernel).ticks n

/-- sys_sleep from a wakeup -/
def sysSleepAgain (ticks0 n : ℕ) : K Exit := do
  acquire .ticks
  sysSleepLoop ticks0 n

end Xv6
