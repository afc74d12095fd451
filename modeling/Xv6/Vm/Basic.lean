/-
Physical pages and page tables (kalloc.c, vm.c).

- A physical page is known by its number: the page at physical address pa is page pa / PGSIZE. A pointer that kalloc returns
  is such a number, and P2V and V2P, the kernel's direct mapping, disappear. It is aligned, so kfree's test of `v % PGSIZE`
  has no counterpart.
- `Mem`: the contents of all pages, and the free list. kalloc.c links the free pages through their first words; here the list
  is a list.
- A pointer to a page-table entry is the page and the number of the word in it; the null pointer is none.
- Addresses and sizes are numbers below 2^32; sums of them are cut to 32 bits.
- A loop whose end the code does not bound runs on fuel, which `.stuck` reports to be out.
- `Link`: the linker's symbols (kernel.ld).
-/
import Xv6.Lib.Bytes
import Xv6.Lib.Fallible
import Xv6.Lib.Words

namespace Xv6.Vm

open Bytes

/-! ## Addresses (mmu.h, memlayout.h) -/

abbrev PGSIZE : ℕ := 4096
abbrev NPDENTRIES : ℕ := 1024
abbrev EXTMEM : ℕ := 0x100000
abbrev PHYSTOP : ℕ := 0xE000000
abbrev DEVSPACE : ℕ := 0xFE000000
abbrev KERNBASE : ℕ := 0x80000000
abbrev KERNLINK : ℕ := KERNBASE + EXTMEM

abbrev PTE_P : ℕ := 1
abbrev PTE_W : ℕ := 2
abbrev PTE_U : ℕ := 4

def PDX (va : ℕ) : ℕ := va / 2 ^ 22 % 1024

def PTX (va : ℕ) : ℕ := va / 2 ^ 12 % 1024

def PGADDR (d t o : ℕ) : ℕ := uint32 (d * 2 ^ 22 + t * 2 ^ 12 + o)

def PGROUNDUP (sz : ℕ) : ℕ := uint32 (sz + (PGSIZE - 1)) / PGSIZE * PGSIZE

def PGROUNDDOWN (a : ℕ) : ℕ := a / PGSIZE * PGSIZE

/-- `pte & PTE_P` -/
def Present (pte : ℕ) : Prop := pte % 2 = 1

/-- `pte & PTE_U` -/
def UserBit (pte : ℕ) : Prop := pte / PTE_U % 2 = 1

instance (pte : ℕ) : Decidable (Present pte) := inferInstanceAs (Decidable (_ = _))

instance (pte : ℕ) : Decidable (UserBit pte) := inferInstanceAs (Decidable (_ = _))

/-- the page of `PTE_ADDR(pte)` -/
def pteFrame (pte : ℕ) : ℕ := pte / PGSIZE

/-- `PTE_FLAGS(pte)` -/
def pteFlags (pte : ℕ) : ℕ := pte % PGSIZE

/-- `pte & ~PTE_U` -/
def clearUser (pte : ℕ) : ℕ := if UserBit pte then pte - PTE_U else pte

/-- the addresses of the kernel's sections that the linker sets: the physical address of `data` and that of `end` -/
structure Link where
  data : ℕ
  kend : ℕ
  -- kernel.ld puts data on a page boundary, behind the text
  aligned : data % PGSIZE = 0
  text : EXTMEM < data
  order : data ≤ kend
  -- entrypgdir, which kinit1 runs under, maps 4 MByte
  small : kend ≤ 4 * 1024 * 1024

/-! ## Memory -/

abbrev Page := Bytes.Buf 4096

def zeroPage : Page := fun _ => 0

structure Mem where
  page : ℕ → Page
  freelist : List ℕ

inductive Fault where
  /-- kfree's panic, or that of deallocuvm -/
  | kfree
  | remap
  | physTop
  | noPgdir
  | clearpteu
  /-- copyuvm: pte should exist -/
  | copyNoPte
  /-- copyuvm: page not present -/
  | copyNoPage
  /-- loaduvm: addr must be page aligned -/
  | loadAlign
  /-- loaduvm: address should exist -/
  | loadNoPte
  /-- uva2ka reads through a null pointer -/
  | nullPte
  /-- a loop goes on for ever -/
  | stuck
deriving DecidableEq, Repr

abbrev M := StateT Mem (Except Fault)

/-- word i of page p -/
def Mem.word (m : Mem) (p i : ℕ) : ℕ := Bytes.word 4 (m.page p) (4 * i)

def Mem.setPage (m : Mem) (p : ℕ) (c : Page) : Mem := { m with page := Function.update m.page p c }

def Mem.setWord (m : Mem) (p i w : ℕ) : Mem := m.setPage p (putWord 4 (m.page p) (4 * i) w)

def Mem.setFree (m : Mem) (ps : List ℕ) : Mem := { m with freelist := ps }

/-! ## kalloc.c -/

def kalloc : M (Option ℕ) := do
  match (← get).freelist with
  | [] => return none
  | r :: next =>
    modify fun m => m.setFree next
    return some r

def kfree (L : Link) (v : ℕ) : M Unit := do
  if v * PGSIZE < L.kend ∨ PHYSTOP ≤ v * PGSIZE then throw .kfree
  else
    -- fill with junk
    modify fun m => m.setPage v fun _ => 1
    modify fun m => m.setFree (v :: m.freelist)

/-! ## vm.c -/

/-- `memset(p, 0, PGSIZE)` -/
def clearPage (p : ℕ) : M Unit := modify fun m => m.setPage p zeroPage

def walkpgdir (pgdir va : ℕ) (alloc : Bool) : M (Option (ℕ × ℕ)) := do
  let pde := (← get).word pgdir (PDX va)
  if Present pde then return some (pteFrame pde, PTX va)
  else if alloc = false then return none
  else
    match ← kalloc with
    | none => return none
    | some pgtab =>
      clearPage pgtab
      modify fun m => m.setWord pgdir (PDX va) (pgtab * PGSIZE ||| PTE_P ||| PTE_W ||| PTE_U)
      return some (pgtab, PTX va)

/-- the loop of mappages: true for 0, false for -1 -/
def mapLoop (pgdir last perm : ℕ) : ℕ → ℕ → ℕ → M Bool
  | 0, _, _ => throw .stuck
  | n + 1, a, pa => do
    match ← walkpgdir pgdir a true with
    | none => return false
    | some pte =>
      if Present ((← get).word pte.1 pte.2) then throw .remap
      else
        modify fun m => m.setWord pte.1 pte.2 (pa ||| perm ||| PTE_P)
        if a = last then return true
        else mapLoop pgdir last perm n (uint32 (a + PGSIZE)) (uint32 (pa + PGSIZE))

/-- the pages of the address space -/
def NPAGES : ℕ := 2 ^ 20

def mappages (pgdir va size pa perm : ℕ) : M Bool :=
  mapLoop pgdir (PGROUNDDOWN (uint32 (va + size + (2 ^ 32 - 1)))) perm NPAGES (PGROUNDDOWN va) pa

def deallocLoop (L : Link) (pgdir oldsz : ℕ) : ℕ → ℕ → M Unit
  | 0, _ => throw .stuck
  | n + 1, a => do
    if a < oldsz then
      match ← walkpgdir pgdir a false with
      | none =>
        -- on to the next page table
        deallocLoop L pgdir oldsz n (uint32 (uint32 (PGADDR (PDX a + 1) 0 0 + (2 ^ 32 - PGSIZE)) + PGSIZE))
      | some pte =>
        let w := (← get).word pte.1 pte.2
        if Present w then
          if pteFrame w = 0 then throw .kfree
          else
            kfree L (pteFrame w)
            modify fun m => m.setWord pte.1 pte.2 0
            deallocLoop L pgdir oldsz n (uint32 (a + PGSIZE))
        else deallocLoop L pgdir oldsz n (uint32 (a + PGSIZE))
    else return ()

def deallocuvm (L : Link) (pgdir oldsz newsz : ℕ) : M ℕ := do
  if oldsz ≤ newsz then return oldsz
  else
    deallocLoop L pgdir oldsz (NPAGES + 1) (PGROUNDUP newsz)
    return newsz

/-- freevm's loop over the page directory, from entry i on -/
def freeTables (L : Link) (pgdir : ℕ) : ℕ → ℕ → M Unit
  | 0, _ => return ()
  | n + 1, i => do
    let pde := (← get).word pgdir i
    if Present pde then
      kfree L (pteFrame pde)
      freeTables L pgdir n (i + 1)
    else freeTables L pgdir n (i + 1)

def freevm (L : Link) : Option ℕ → M Unit
  | none => throw .noPgdir
  | some pgdir => do
    let _ ← deallocuvm L pgdir KERNBASE 0
    freeTables L pgdir NPDENTRIES 0
    kfree L pgdir

structure Kmap where
  virt : ℕ
  physStart : ℕ
  physEnd : ℕ
  perm : ℕ

def kmap (L : Link) : List Kmap :=
  [⟨KERNBASE, 0, EXTMEM, PTE_W⟩, ⟨KERNLINK, EXTMEM, L.data, 0⟩, ⟨KERNBASE + L.data, L.data, PHYSTOP, PTE_W⟩,
    ⟨DEVSPACE, DEVSPACE, 0, PTE_W⟩]

def mapKernel (pgdir : ℕ) : List Kmap → M Bool
  | [] => return true
  | k :: ks => do
    if ← mappages pgdir k.virt (uint32 (k.physEnd + (2 ^ 32 - k.physStart))) k.physStart k.perm then mapKernel pgdir ks
    else return false

def setupkvm (L : Link) : M (Option ℕ) := do
  match ← kalloc with
  | none => return none
  | some pgdir =>
    clearPage pgdir
    if DEVSPACE < KERNBASE + PHYSTOP then throw .physTop
    else if ← mapKernel pgdir (kmap L) then return some pgdir
    else
      freevm L (some pgdir)
      return none

def allocLoop (L : Link) (pgdir oldsz newsz : ℕ) : ℕ → ℕ → M ℕ
  | 0, _ => throw .stuck
  | n + 1, a => do
    if a < newsz then
      match ← kalloc with
      | none =>
        let _ ← deallocuvm L pgdir newsz oldsz
        return 0
      | some mem =>
        clearPage mem
        if ← mappages pgdir a PGSIZE (mem * PGSIZE) (PTE_W ||| PTE_U) then
          allocLoop L pgdir oldsz newsz n (uint32 (a + PGSIZE))
        else
          let _ ← deallocuvm L pgdir newsz oldsz
          kfree L mem
          return 0
    else return newsz

/-- allocuvm; 0 is the error -/
def allocuvm (L : Link) (pgdir oldsz newsz : ℕ) : M ℕ := do
  if KERNBASE ≤ newsz then return 0
  else if newsz < oldsz then return oldsz
  else allocLoop L pgdir oldsz newsz (NPAGES + 1) (PGROUNDUP oldsz)

def clearpteu (pgdir uva : ℕ) : M Unit := do
  match ← walkpgdir pgdir uva false with
  | none => throw .clearpteu
  | some pte => modify fun m => m.setWord pte.1 pte.2 (clearUser (m.word pte.1 pte.2))

/-- copyuvm's loop: false is `goto bad` -/
def copyLoop (L : Link) (pgdir d sz : ℕ) : ℕ → ℕ → M Bool
  | 0, _ => throw .stuck
  | n + 1, i => do
    if i < sz then
      match ← walkpgdir pgdir i false with
      | none => throw .copyNoPte
      | some pte =>
        let w := (← get).word pte.1 pte.2
        if ¬ Present w then throw .copyNoPage
        else
          match ← kalloc with
          | none => return false
          | some mem =>
            modify fun m => m.setPage mem (m.page (pteFrame w))
            if ← mappages d i PGSIZE (mem * PGSIZE) (pteFlags w) then copyLoop L pgdir d sz n (uint32 (i + PGSIZE))
            else
              kfree L mem
              return false
    else return true

def copyuvm (L : Link) (pgdir sz : ℕ) : M (Option ℕ) := do
  match ← setupkvm L with
  | none => return none
  | some d =>
    if ← copyLoop L pgdir d sz (NPAGES + 1) 0 then return some d
    else
      freevm L (some d)
      return none

def uva2ka (pgdir uva : ℕ) : M (Option ℕ) := do
  match ← walkpgdir pgdir uva false with
  | none => throw .nullPte
  | some pte =>
    let w := (← get).word pte.1 pte.2
    if ¬ Present w then return none
    else if ¬ UserBit w then return none
    else return some (pteFrame w)

/-- copyout; n bounds the rounds, which each copy at least a byte -/
def copyLoopOut (pgdir : ℕ) : ℕ → ℕ → List UInt8 → M Bool
  | 0, _, p => if p = [] then return true else throw .stuck
  | n + 1, va, p => do
    if p = [] then return true
    else
      let va0 := PGROUNDDOWN va
      match ← uva2ka pgdir va0 with
      | none => return false
      | some pa0 =>
        let k := min (PGSIZE - (va - va0)) p.length
        modify fun m => m.setPage pa0 (patch (m.page pa0) (va - va0) (p.take k))
        copyLoopOut pgdir n (uint32 (va0 + PGSIZE)) (p.drop k)

def copyout (pgdir va : ℕ) (p : List UInt8) : M Bool := copyLoopOut pgdir p.length va p

/-- readi on a regular file with the bytes c; none is -1 -/
def readi (c : List UInt8) (off n : ℕ) : Option (List UInt8) :=
  if c.length < off ∨ uint32 (off + n) < off then none else some ((c.drop off).take n)

def loadLoop (c : List UInt8) (pgdir addr offset sz : ℕ) : ℕ → ℕ → M Bool
  | 0, _ => throw .stuck
  | k + 1, i => do
    if i < sz then
      match ← walkpgdir pgdir (uint32 (addr + i)) false with
      | none => throw .loadNoPte
      | some pte =>
        let pa := pteFrame ((← get).word pte.1 pte.2)
        let n := if sz - i < PGSIZE then sz - i else PGSIZE
        match readi c (uint32 (offset + i)) n with
        | none => return false
        | some bs =>
          modify fun m => m.setPage pa (patch (m.page pa) 0 bs)
          if bs.length ≠ n then return false
          else loadLoop c pgdir addr offset sz k (uint32 (i + PGSIZE))
    else return true

/-- loaduvm on a regular file with the bytes c -/
def loaduvm (c : List UInt8) (pgdir addr offset sz : ℕ) : M Bool :=
  if addr % PGSIZE ≠ 0 then throw .loadAlign else loadLoop c pgdir addr offset sz (NPAGES + 1) 0

end Xv6.Vm
