/-
The memory of all processes (proc.c, exec.c): fork, exec, sbrk and wait on one physical memory.

- `Machine`: the memory, and the process table with the kernel stacks. A slot without a process is UNUSED. What the code writes
  to a kernel stack is not modelled.
- `step`: each call is one step. `wait j` is the part of wait behind the test that slot j is a ZOMBIE.
- `Images`, `Spec`: what the calls are for. Each process has an address space of its own, and there are no physical pages.
- `Ok L T s A`: each page of T is in exactly one place, the processes see the address spaces A, and a process has the pages below
  its size and no others.
- `Op.Allowed`: growproc does not give back all the memory, and exec's arguments take copyout to no missing page table.

Results:
- `step_after`: one step keeps `Ok` and does what `Spec` says;
- `run_pages`: **in every run, each page is in exactly one place, and no step panics**;
- `run_isolated`: **every run is a run of separate address spaces**.
-/
import Xv6.Lib.Runs
import Xv6.Proc.Basic
import Xv6.Vm.Whole

namespace Xv6.Vm

open Bytes Owners Fallible Function Runs Option

/-! ## The machine -/

structure Machine where
  mem : Mem
  proc : Slot → Option Uproc
  kstack : Slot → Option ℕ
  nextpid : Int

abbrev MM := StateT Machine (Except Fault)

def Machine.setMem (s : Machine) (m : Mem) : Machine := { s with mem := m }

def Machine.setProc (s : Machine) (i : Slot) (p : Option Uproc) : Machine := { s with proc := update s.proc i p }

def Machine.setKstack (s : Machine) (i : Slot) (p : Option ℕ) : Machine := { s with kstack := update s.kstack i p }

/-- the memory's part of a call -/
def onMem {α : Type} (x : M α) : MM α := fun s => (x s.mem).map fun r => (r.1, s.setMem r.2)

/-- `kfree(p->kstack); p->kstack = 0` -/
def freeKstack (L : Link) (j : Slot) : MM Unit := do
  match (← get).kstack j with
  | none => throw .kfree
  | some p =>
    onMem (kfree L p)
    modify fun s => s.setKstack j none

/-- allocproc: the slot and the pid -/
def allocproc : MM (Option (Slot × Int)) := do
  let s ← get
  match (List.finRange NPROC).find? fun j => (s.proc j).isNone with
  | none => return none
  | some j =>
    modify fun s => { s with nextpid := int32 (s.nextpid + 1) }
    match ← onMem kalloc with
    | none => return none
    | some p =>
      modify fun s => s.setKstack j (some p)
      return some (j, s.nextpid)

/-- the child of p, with the directory that copyuvm made -/
def Uproc.child (p : Uproc) (d : ℕ) (pid : Int) : Uproc := { p with pgdir := d, pid := pid, schedClass := 2, schedLevel := 2 }

/-- fork by the process of slot i: the pid, or none for -1 -/
def fork (L : Link) (i : Slot) : MM (Option Int) := do
  match (← get).proc i with
  | none => return none
  | some p =>
    match ← allocproc with
    | none => return none
    | some (j, pid) =>
      match ← onMem (copyuvm L p.pgdir p.sz) with
      | none =>
        freeKstack L j
        return none
      | some d =>
        modify fun s => s.setProc j (some (p.child d pid))
        return some pid

/-- a call that changes the process of slot i -/
def onProc (i : Slot) (f : Uproc → M (Bool × Uproc)) : MM Bool := do
  match (← get).proc i with
  | none => return false
  | some p =>
    let r ← onMem (f p)
    modify fun s => s.setProc i (some r.2)
    return r.1

/-- wait, when it has found the process of slot j to be a ZOMBIE -/
def wait (L : Link) (j : Slot) : MM Bool := do
  match (← get).proc j with
  | none => return false
  | some p =>
    freeKstack L j
    onMem (freevm L (some p.pgdir))
    modify fun s => s.setProc j none
    return true

inductive Op where
  | fork (i : Slot)
  | exec (i : Slot) (file : Option (List UInt8)) (path : List UInt8) (argv : List (List UInt8))
  | sbrk (i : Slot) (n : Int)
  | wait (j : Slot)

/-- a call, and whether it succeeds -/
def step (L : Link) : Op → MM Bool
  | .fork i => do return (← fork L i).isSome
  | .exec i file path argv => onProc i (exec L file path argv)
  | .sbrk i n => onProc i (growproc L · n)
  | .wait j => wait L j

/-- wherever exec puts the stack, copyout meets a page table -/
def ClearAll (argv : List (List UInt8)) : Prop :=
  (∀ t ∈ argv, t.length < KERNBASE) ∧ ∀ g, Clear ((g + 1) * 4096) ((g + 2) * 4096) (argv.map List.length)

def Op.Allowed (s : Machine) : Op → Prop
  | .exec _ file _ argv => (∀ c, file = some c → c.length < 2 ^ 32) ∧ ClearAll argv
  | .sbrk i n => n < 2 ^ 31 ∧ ∀ p, s.proc i = some p → n < 0 → p.sz = 0 ∨ 0 < (p.sz : Int) + n
  | _ => True

/-- the directories; none is for the one that exec is building -/
def Machine.dir (s : Machine) : Option Slot → Option ℕ := fun j => (j.bind s.proc).map Uproc.pgdir

/-! ## What the calls are for -/

/-- the processes, each with its address space -/
abbrev Images := Slot → Option (Uproc × View)

/-- the process that exec starts from the file c, and its address space -/
def Started (c path : List UInt8) (argv : List (List UInt8)) (p u : Uproc) (W : View) : Prop :=
  ∃ elf d g sp stack ptrs, readi c 0 52 = some elf ∧ elf.length = 52 ∧ field elf 0 4 = ELF_MAGIC ∧
    u = p.image path elf d ((g + 2) * 4096) sp ∧ Frame g sp stack argv ptrs ∧ W = loadedView g (segByte c (segments c)) stack

/-- a call that succeeds puts x into slot j -/
def Puts (A : Images) : Op → Slot → Option (Uproc × View) → Prop
  | .fork i, j, x => A j = none ∧ ∃ p V d pid, A i = some (p, V) ∧ x = some (p.child d pid, V)
  | .exec i file path argv, j, x => j = i ∧ ∃ p V c u W, A i = some (p, V) ∧ file = some c ∧ Started c path argv p u W ∧
      x = some (u, W)
  | .sbrk i n, j, x => j = i ∧ ∃ p V, ∃ sz : ℕ, A i = some (p, V) ∧ (sz : Int) = p.sz + n ∧ sz < KERNBASE ∧
      x = some ({ p with sz := sz }, resized V p.sz sz)
  | .wait i, j, x => j = i ∧ (A i).isSome = true ∧ x = none

/-- a call and its result -/
def Spec (A : Images) (c : Op × Bool) (A' : Images) : Prop :=
  if c.2 then ∃ j x, Puts A c.1 j x ∧ A' = update A j x else A' = A

/-- the process u of the memory m has the address space W -/
structure Fits (m : Mem) (u : Uproc) (W : View) : Prop where
  view : ∀ v, v < UPAGES → Vm.view m.page u.pgdir v = W v
  size : u.sz < KERNBASE
  exactly : Exactly W u.sz

structure Ok (L : Link) (T : ℕ → Prop) (s : Machine) (A : Images) : Prop where
  whole : Whole L T s.mem s.dir s.kstack
  kstack : ∀ i, (s.kstack i).isSome = (A i).isSome
  proc : ∀ i, s.proc i = (A i).map Prod.fst
  fits : ∀ i u W, A i = some (u, W) → Fits s.mem u W

/-! ## exec among the directories -/

section Exec

variable {ι κ : Type} {L : Link} {S T : ℕ → Prop} {F : Ram} {m m' : Mem} {dir : ι → Option ℕ} {page : κ → Option ℕ}
  {V : View} {K : ℕ → Option ℕ} {j j0 : ι} {p : Uproc} {c elf path : List UInt8} {file : Option (List UInt8)}
  {argv : List (List UInt8)} {d : ℕ} {E : Fault → Prop}

/-- the new image, before exec commits to it -/
theorem wp_build {Q : Option (ℕ × ℕ) → Mem → Prop} (hc : c.length < 2 ^ 32) (hargs : ClearAll argv)
    (h : Rep L S F m (some d) [] (fun _ => none) (kernelMap L))
    (hyes : ∀ m' g sp stack ptrs, g + 2 < UPAGES → Frame g sp stack argv ptrs →
      Rep L S F m' (some d) [] (loadedView g (segByte c (loadable c (field elf 44 2) (field elf 28 4))) stack) (kernelMap L) →
      Q (some ((g + 2) * 4096, sp)) m')
    (hno : ∀ m' V', Rep L S F m' (some d) [] V' (kernelMap L) → Q none m') : wp E (build L c elf argv d) Q m := by
  unfold build
  refine wp_bind.2 (wp_load hc h (fun m1 g _ hg h1 => ?_) fun m1 V1 _ h1 => wp_pure.2 (hno m1 V1 h1))
  refine wp_bind.2 (wp_pushArgs h1 hg hargs.1 (fun hbad => absurd (hargs.2 g) hbad) (fun m2 sp stack ptrs _ hf h2 => ?_)
    fun m2 V2 _ _ h2 => wp_pure.2 (hno m2 V2 h2))
  exact wp_pure.2 (hyes m2 g sp stack ptrs hg hf h2)

/-- exec's last step: the old directory goes back, and the one that was built beside it takes its place -/
theorem wp_commit [DecidableEq ι] {Q : Unit → Mem → Prop} {old : ℕ} (h : Whole L T m dir page) (hj : dir j = some old)
    (h0 : dir j0 = none) (hrep : Rep L (m.area none none) m.page m' (some d) [] V K)
    (hQ : ∀ m'', Whole L T m'' (update dir j (some d)) page → Kept dir j m m'' →
      (∀ v, v < UPAGES → view m''.page d v = V v) → Q () m'') : wp E (freevm L (some old)) Q m' := by
  have hjj : j ≠ j0 := by
    intro e
    rw [e, h0] at hj
    cases hj
  -- two directories at once
  obtain ⟨hw, hkept⟩ := h.ran h0 hrep
  have hd0 : update dir j0 (some d) j0 = some d := update_self ..
  have hdj : update dir j0 (some d) j = some old := by rw [update_of_ne hjj, hj]
  refine wp_freevm (hw.alone hdj) fun m'' V' K' h' => ?_
  obtain ⟨hw', hkept'⟩ := hw.ran hdj h'
  have hswap : (fun i => update (update dir j0 (some d)) j none (Equiv.swap j0 j i)) =
      update dir j (some d) := by
    funext i
    simp only [Equiv.swap_apply_def, update_apply]
    split_ifs <;> simp_all
  have hwhole := hw'.rename (Equiv.swap j0 j)
  rw [hswap] at hwhole
  refine hQ m'' hwhole (fun i e hi he v hv => ?_) fun v hv => ?_
  · have hi0 : i ≠ j0 := by
      intro e0
      rw [e0, h0] at he
      cases he
    calc view m''.page e v = view m'.page e v := hkept' i e hi (by rw [update_of_ne hi0, he]) v hv
      _ = view m.page e v := hkept i e hi0 he v hv
  · calc view m''.page d v = view m'.page d v := hkept' j0 d hjj.symm hd0 v hv
      _ = V v := hrep.view d rfl v hv

/-- **exec among all the directories**, with j0 for the one that it builds: it fails and nothing has changed, or j leads to the new
image. -/
theorem wp_exec [DecidableEq ι] {Q : Bool × Uproc → Mem → Prop} (h : Whole L T m dir page) (hj : dir j = some p.pgdir)
    (h0 : dir j0 = none) (hfile : ∀ c, file = some c → c.length < 2 ^ 32) (hargs : ClearAll argv)
    (hno : ∀ m', Whole L T m' dir page → Kept dir j0 m m' → Q (false, p) m')
    (hyes : ∀ m' c u W, file = some c → Started c path argv p u W →
      Whole L T m' (update dir j (some u.pgdir)) page → Kept dir j m m' →
      (∀ v, v < UPAGES → view m'.page u.pgdir v = W v) → Q (true, u) m') : wp E (exec L file path argv p) Q m := by
  have hsame : Q (false, p) m := hno m h fun _ _ _ _ _ _ => rfl
  -- what fails gives all the pages back
  have hback : ∀ m' V' K', Rep L (m.area none none) m.page m' none [] V' K' → Q (false, p) m' := by
    intro m' V' K' h'
    obtain ⟨hw, hkept⟩ := h.ran h0 h'
    rw [← h0, update_eq_self] at hw
    exact hno m' hw hkept
  unfold exec
  cases file with
  | none => exact wp_pure.2 hsame
  | some c =>
    cases helf : readi c 0 52 with
    | none =>
      simp only [helf]
      exact wp_pure.2 hsame
    | some elf =>
      simp only [helf, wp_ite]
      refine ⟨fun _ => wp_pure.2 hsame, fun hgood => ?_⟩
      rw [not_or, not_not, not_not] at hgood
      refine wp_bind.2 (wp_setupkvm (h.alone h0) (fun d m1 h1 => ?_) fun m1 V1 K1 _ h1 => wp_pure.2 (hback m1 V1 K1 h1))
      refine wp_bind.2 (wp_build (hfile c rfl) hargs h1 (fun m2 g sp stack ptrs hg hf h2 => ?_) fun m2 V2 h2 => ?_)
      · have hseg : segments c = loadable c (field elf 44 2) (field elf 28 4) := by rw [segments, helf]
        rw [← hseg] at h2
        refine wp_bind.2 (wp_commit h hj h0 h2 fun m3 hw hkept hview => wp_pure.2 ?_)
        exact hyes m3 c (p.image path elf d ((g + 2) * 4096) sp) _ rfl
          ⟨elf, d, g, sp, stack, ptrs, helf, hgood.1, hgood.2, rfl, hf, rfl⟩ hw hkept hview
      · exact wp_bind.2 (wp_freevm h2 fun m3 V3 K3 h3 => wp_pure.2 (hback m3 V3 K3 h3))

/-- the size of a process that exec started -/
theorem Started.sized {u : Uproc} {W : View} (h : Started c path argv p u W) : u.sz < KERNBASE ∧ Exactly W u.sz := by
  obtain ⟨elf, d, g, sp, stack, ptrs, -, -, -, rfl, hf, rfl⟩ := h
  have hg : g + 2 < 2 ^ 19 := hf.stack.fits
  have hpages : pages ((g + 2) * 4096) = g + 2 := by unfold pages; omega
  refine ⟨?_, fun v _ => ?_⟩
  · show (g + 2) * 4096 < KERNBASE
    simp only [KERNBASE]
    omega
  · show (loadedView g (segByte c (segments c)) stack v).isSome ↔ v < pages ((g + 2) * 4096)
    rw [hpages]
    unfold loadedView
    split_ifs <;> simp <;> omega

end Exec

/-! ## The processes -/

variable {L : Link} {T : ℕ → Prop} {s s' : Machine} {i j : Slot} {p u : Uproc} {n : Int} {q : ℕ} {op : Op} {m m' : Mem}
  {A : Images} {V W : View} {E : Fault → Prop} {α : Type}

@[simp] theorem wp_onMem {x : M α} {Q : α → Machine → Prop} :
    wp E (onMem x) Q s ↔ wp E x (fun a m' => Q a (s.setMem m')) s.mem := by
  unfold wp onMem
  cases x s.mem <;> rfl

theorem dir_proc (h : s.proc i = some p) : s.dir (some i) = some p.pgdir := by
  rw [Machine.dir, bind_some, h, map_some]

theorem dir_setProc (s : Machine) (i : Slot) (x : Option Uproc) :
    (s.setProc i x).dir = update s.dir (some i) (x.map Uproc.pgdir) := by
  funext j
  cases j with
  | none => rfl
  | some j =>
    simp only [Machine.dir, Machine.setProc, bind_some, update_apply, some.injEq]
    split_ifs <;> rfl

theorem Fits.kept (h : Fits m u W) (hk : ∀ v, v < UPAGES → Vm.view m'.page u.pgdir v = Vm.view m.page u.pgdir v) : Fits m' u W :=
  { h with view := fun v hv => (hk v hv).trans (h.view v hv) }

theorem Ok.image (h : Ok L T s A) (hp : s.proc i = some p) : ∃ V, A i = some (p, V) ∧ Fits s.mem p V := by
  rw [h.proc i] at hp
  obtain ⟨x, hx, rfl⟩ := map_eq_some_iff.1 hp
  exact ⟨x.2, hx, h.fits i x.1 x.2 hx⟩

theorem Ok.dir (h : Ok L T s A) (hi : A i = some (u, W)) : s.dir (some i) = some u.pgdir :=
  dir_proc (by rw [h.proc i, hi]; rfl)

/-- another process in slot i, or none, and its kernel stack -/
theorem Ok.put (h : Ok L T s A) (x : Option (Uproc × View)) (y : Option ℕ) (hxy : y.isSome = x.isSome)
    (hproc : s'.proc = update s.proc i (x.map Prod.fst)) (hk : s'.kstack = update s.kstack i y)
    (hw : Whole L T s'.mem s'.dir s'.kstack) (hkept : Kept s.dir (some i) s.mem s'.mem)
    (hx : ∀ z, x = some z → Fits s'.mem z.1 z.2) : Ok L T s' (update A i x) := by
  refine ⟨hw, fun i' => ?_, fun i' => ?_, fun i' u W hi => ?_⟩
  · rw [hk, update_apply, update_apply]
    split_ifs
    · exact hxy
    · exact h.kstack i'
  · rw [hproc, update_apply, update_apply]
    split_ifs
    · rfl
    · exact h.proc i'
  · by_cases hii : i' = i
    · rw [hii, update_self] at hi
      exact hx _ hi
    · rw [update_of_ne hii] at hi
      exact (h.fits i' u W hi).kept (hkept (some i') u.pgdir (by simpa using hii) (h.dir hi))

/-- a step that changes no process -/
theorem Ok.same (h : Ok L T s A) (hproc : s'.proc = s.proc) (hk : s'.kstack = s.kstack) (hw : Whole L T s'.mem s'.dir s'.kstack)
    (hkept : Kept s.dir none s.mem s'.mem) : Ok L T s' A :=
  ⟨hw, fun i => by rw [hk, h.kstack i], fun i => by rw [hproc, h.proc i],
    fun i u W hi => (h.fits i u W hi).kept (hkept (some i) u.pgdir (by simp) (h.dir hi))⟩

/-! ## One step -/

/-- the state after a step, and what the step did -/
def After (L : Link) (T : ℕ → Prop) (A : Images) (op : Op) (r : Bool) (s' : Machine) : Prop :=
  ∃ A', Spec A (op, r) A' ∧ Ok L T s' A'

/-- a call by the process of slot i has left the memory m', with r.2 as the process -/
def Replaced (L : Link) (T : ℕ → Prop) (s : Machine) (A : Images) (i : Slot) (op : Op) (r : Bool × Uproc) (m' : Mem) : Prop :=
  ∃ W, Whole L T m' (update s.dir (some i) (some r.2.pgdir)) s.kstack ∧ Kept s.dir (some i) s.mem m' ∧ Fits m' r.2 W ∧
    Spec A (op, r.1) (update A i (some (r.2, W)))

theorem wp_onProc {f : Uproc → M (Bool × Uproc)} (h : Ok L T s A)
    (hf : ∀ p V, s.proc i = some p → A i = some (p, V) → Fits s.mem p V → wp E (f p) (Replaced L T s A i op) s.mem) :
    wp E (onProc i f) (After L T A op) s := by
  unfold onProc
  rw [wp_bind, wp_get]
  cases hp : s.proc i with
  | none => exact wp_pure.2 ⟨A, rfl, h⟩
  | some p =>
    obtain ⟨V, hV, hfits⟩ := h.image hp
    simp only [wp_bind, wp_onMem, wp_modify, wp_pure]
    refine wp_mono (hf p V hp hV hfits) fun r m' hpost => ?_
    obtain ⟨W, hw, hkept, hW, hspec⟩ := hpost
    refine ⟨_, hspec, h.put (some (r.2, W)) (s.kstack i) ?_ rfl
      (update_eq_self ..).symm (by rw [dir_setProc]; exact hw) hkept fun z hz => by cases hz; exact hW⟩
    rw [h.kstack, hV]
    rfl

theorem wp_execStep {file : Option (List UInt8)} {path : List UInt8} {argv : List (List UInt8)} (h : Ok L T s A)
    (ha : (Op.exec i file path argv).Allowed s) :
    wp E (onProc i (exec L file path argv)) (After L T A (.exec i file path argv)) s := by
  refine wp_onProc h fun p V hp hV hfits => ?_
  have hdir := dir_proc hp
  have hspare : s.dir none = none := rfl
  refine wp_exec h.whole hdir hspare ha.1 ha.2 (fun m' hw hkept => ?_) fun m' c u W hc hst hw hkept hview => ?_
  · refine ⟨V, ?_, hkept.other rfl _, hfits.kept (hkept (some i) _ (by simp) hdir), ?_⟩
    · rw [← hdir, update_eq_self]
      exact hw
    · rw [← hV, update_eq_self]
      rfl
  · exact ⟨W, hw, hkept, ⟨hview, hst.sized.1, hst.sized.2⟩, i, _, ⟨rfl, p, V, c, u, W, hV, hc, hst, rfl⟩, rfl⟩

theorem resized_exactly {sz new : ℕ} (hV : Exactly V sz) : Exactly (resized V sz new) new := by
  intro v hv
  unfold resized
  split_ifs with h1 h2
  · exact iff_of_true ((hV v hv).2 h2) h1
  · exact iff_of_true rfl h1
  · exact iff_of_false (by simp) h1

theorem wp_sbrk (h : Ok L T s A) (ha : (Op.sbrk i n).Allowed s) : wp E (onProc i (growproc L · n)) (After L T A (.sbrk i n)) s := by
  refine wp_onProc h fun p V hp hV hfits => ?_
  have hsz := hfits.size
  have hex := hfits.exactly
  have hs : p.sz < 2 ^ 31 := hsz
  have hrep := rep_view (h.whole.alone (dir_proc hp)) hfits.view
  -- growproc fails, and the address space is the old one; or the size is the sum
  have hno : ∀ {K} m', Rep L (s.mem.area (some p.pgdir) none) s.mem.page m' (some p.pgdir) [] V K →
      Replaced L T s A i (.sbrk i n) (false, p) m' := by
    intro K m' h'
    obtain ⟨hw, hkept⟩ := h.whole.ran (dir_proc hp) h'
    refine ⟨V, hw, hkept, { hfits with view := h'.view _ rfl }, ?_⟩
    rw [← hV, update_eq_self]
    rfl
  have hyes : ∀ {K} m' (sz : ℕ), (sz : Int) = p.sz + n → sz < KERNBASE →
      Rep L (s.mem.area (some p.pgdir) none) s.mem.page m' (some p.pgdir) [] (resized V p.sz sz) K →
      Replaced L T s A i (.sbrk i n) (true, { p with sz := sz }) m' := by
    intro K m' sz hsum hlt h'
    obtain ⟨hw, hkept⟩ := h.whole.ran (dir_proc hp) h'
    exact ⟨_, hw, hkept, ⟨h'.view _ rfl, hlt, resized_exactly hex⟩, i, _, ⟨rfl, p, V, sz, hV, hsum, hlt, rfl⟩, rfl⟩
  obtain ⟨hn', hleft⟩ := ha
  rcases lt_trichotomy n 0 with hneg | rfl | hpos
  · refine growproc_shrinks hrep hsz hneg fun m' h' => ?_
    rcases hleft p hp hneg with hz | hleft
    · rw [hz, Nat.zero_min, if_pos rfl]
      rw [hz, cut_empty (show pages 0 ≤ _ from Nat.zero_le _)] at h'
      exact hno m' h'
    · have hsum : (addInt p.sz n : Int) = p.sz + n := addInt_eq (by omega) (by omega)
      have hle : addInt p.sz n ≤ p.sz := by omega
      rw [min_eq_right hle, if_neg (by omega)]
      exact hyes m' _ hsum (lt_of_le_of_lt hle hsz) (rep_view h' fun v hv => cut_resized hex hle hv)
  · unfold growproc
    rw [if_neg (lt_irrefl 0), if_neg (lt_irrefl 0)]
    exact wp_pure.2 (hyes s.mem p.sz (add_zero _).symm hsz (rep_view hrep fun v hv => (resized_self hex hv).symm))
  · exact growproc_grows hrep hsz hex hpos hn' hyes fun m' _ h' => hno m' h'

theorem wp_freeKstack {Q : Unit → Machine → Prop} (h : Whole L T s.mem s.dir s.kstack) (hk : s.kstack j = some q)
    (hQ : ∀ m', Whole L T m' s.dir (update s.kstack j none) → Kept s.dir none s.mem m' →
      Q () ((s.setMem m').setKstack j none)) : wp E (freeKstack L j) Q s := by
  have hrep := h.rep none (some j)
  rw [bind_some, hk] at hrep
  unfold freeKstack
  rw [wp_bind, wp_get, hk]
  simp only [wp_bind, wp_onMem, wp_modify]
  refine wp_kfree hrep fun m' h' _ => ?_
  obtain ⟨hw, hkept⟩ := h.own (j := none) (y := none) rfl hk h' rfl
  exact hQ m' hw hkept

theorem wp_wait (h : Ok L T s A) : wp E (wait L j) (After L T A (.wait j)) s := by
  unfold wait
  rw [wp_bind, wp_get]
  cases hp : s.proc j with
  | none => exact wp_pure.2 ⟨A, rfl, h⟩
  | some p =>
    obtain ⟨V, hV, -⟩ := h.image hp
    obtain ⟨q, hq⟩ : ∃ q, s.kstack j = some q := isSome_iff_exists.1 (by rw [h.kstack j, hV]; rfl)
    refine wp_bind.2 (wp_freeKstack h.whole hq fun m1 hw1 hkept1 => ?_)
    rw [wp_bind, wp_onMem]
    refine wp_freevm (hw1.alone (dir_proc hp)) fun m2 V2 K2 h2 => ?_
    obtain ⟨hw2, hkept2⟩ := hw1.ran (dir_proc hp) h2
    simp only [wp_bind, wp_modify, wp_pure]
    exact ⟨_, ⟨j, none, ⟨rfl, by rw [hV]; rfl, rfl⟩, rfl⟩, h.put none none rfl rfl rfl (by rw [dir_setProc]; exact hw2)
      ((hkept1.other rfl _).trans hkept2) fun z hz => by cases hz⟩

/-- an UNUSED slot gets a kernel stack -/
theorem wp_allocproc {Q : Option (Slot × Int) → Machine → Prop} (h : Ok L T s A) (hno : ∀ n', Q none { s with nextpid := n' })
    (hyes : ∀ j q m' n', A j = none → s.kstack j = none → Whole L T m' s.dir (update s.kstack j (some q)) →
      Kept s.dir none s.mem m' → Q (some (j, s.nextpid)) ⟨m', s.proc, update s.kstack j (some q), n'⟩) :
    wp E allocproc Q s := by
  unfold allocproc
  rw [wp_bind, wp_get]
  cases hfind : (List.finRange NPROC).find? fun j => (s.proc j).isNone with
  | none => exact wp_pure.2 (hno s.nextpid)
  | some j =>
    have hj : A j = none := by simpa [h.proc j] using List.find?_some hfind
    have hk : s.kstack j = none := by simpa [hj] using h.kstack j
    have hrep := h.whole.rep none (some j)
    rw [bind_some, hk] at hrep
    simp only [wp_bind, wp_modify, wp_onMem]
    refine wp_kalloc hrep (fun _ => wp_pure.2 (hno _)) fun q m' h' _ => ?_
    obtain ⟨hw, hkept⟩ := h.whole.own (j := none) (y := some q) rfl hk h' rfl
    simp only [wp_bind, wp_modify, wp_pure]
    exact hyes j q m' _ hj hk hw hkept

theorem wp_fork (h : Ok L T s A) : wp E (fork L i) (fun r => After L T A (.fork i) r.isSome) s := by
  unfold fork
  rw [wp_bind, wp_get]
  cases hp : s.proc i with
  | none => exact wp_pure.2 ⟨A, rfl, h⟩
  | some p =>
    obtain ⟨V, hV, hfits⟩ := h.image hp
    refine wp_bind.2 (wp_allocproc h (fun n' => wp_pure.2 ⟨A, rfl, h.same rfl rfl h.whole fun _ _ _ _ _ _ => rfl⟩)
      fun j q m1 n' hj hk hw1 hkept1 => ?_)
    have hij : some i ≠ some j := by
      intro e
      rw [some.inj e, hj] at hV
      cases hV
    have hdir : s.dir (some j) = none := by rw [Machine.dir, bind_some, h.proc j, hj]; rfl
    have hview1 : ∀ v, v < UPAGES → view m1.page p.pgdir v = V v :=
      fun v hv => (hkept1 (some i) _ (by simp) (dir_proc hp) v hv).trans (hfits.view v hv)
    have hall : ∀ v, v < pages p.sz → (view m1.page p.pgdir v).isSome = true := by
      intro v hv
      have hvu := lt_of_lt_of_le hv (pages_le hfits.size.le)
      rw [hview1 v hvu]
      exact (hfits.exactly v hvu).2 hv
    -- the child is built from the free pages, beside the parent
    have hout := hw1.outside none hij (dir_proc hp)
    rw [hdir] at hout
    rw [wp_bind, wp_onMem]
    refine wp_copyuvm hout hfits.size.le hall (hw1.alone hdir) (fun d m2 h2 => ?_) fun m2 V2 K2 _ h2 => ?_
    · obtain ⟨hw2, hkept2⟩ := hw1.ran hdir h2
      simp only [wp_bind, wp_modify, wp_pure]
      have hchild : Fits m2 (p.child d s.nextpid) V := by
        refine { hfits with view := fun v hv => (h2.view d rfl v hv).trans ?_ }
        unfold below
        split_ifs with hlt
        · exact hview1 v hv
        · exact (not_isSome_iff_eq_none.1 fun hs => hlt ((hfits.exactly v hv).1 hs)).symm
      exact ⟨_, ⟨j, _, ⟨hj, p, V, d, s.nextpid, hV, rfl⟩, rfl⟩, h.put (some (p.child d s.nextpid, V)) (some q) rfl rfl rfl
        (by rw [dir_setProc]; exact hw2) ((hkept1.other rfl _).trans hkept2) fun z hz => by cases hz; exact hchild⟩
    · -- the kernel stack goes back, too
      obtain ⟨hw2, hkept2⟩ := hw1.ran hdir h2
      rw [← hdir, update_eq_self] at hw2
      refine wp_bind.2 (wp_freeKstack (s := ⟨m2, s.proc, update s.kstack j (some q), n'⟩) hw2 (update_self ..)
        fun m3 hw3 hkept3 => wp_pure.2 ?_)
      have hback : update (update s.kstack j (some q)) j none = s.kstack := by
        rw [update_idem, ← hk, update_eq_self]
      exact ⟨A, rfl, h.same rfl hback hw3 (hkept1.trans ((hkept2.other hdir _).trans hkept3))⟩

theorem step_after (h : Ok L T s A) (ha : op.Allowed s) : wp E (step L op) (After L T A op) s := by
  cases op with
  | fork i => exact wp_bind.2 (wp_mono (wp_fork h) fun _ _ hs => wp_pure.2 hs)
  | exec i file path argv => exact wp_execStep h ha
  | sbrk i n => exact wp_sbrk h ha
  | wait j => exact wp_wait h

/-! ## Runs -/

/-- calls with their results, each of them allowed where it is made -/
def Run (L : Link) : Machine → List (Op × Bool) → Machine → Prop :=
  Trace fun s c s' => c.1.Allowed s ∧ step L c.1 s = .ok (c.2, s')

theorem run_after {cs : List (Op × Bool)} (h : Ok L T s A) (hr : Run L s cs s') : ∃ A', Trace Spec A cs A' ∧ Ok L T s' A' :=
  trace_sim (fun _ _ _ _ hc hok => wp_ok (step_after (E := fun _ => False) hok hc.1) hc.2) hr h

/-- the process whose address space a call is to change -/
def Op.target : Op → Option Slot
  | .fork _ => none
  | .exec i _ _ _ | .sbrk i _ | .wait i => some i

theorem spec_other {A' : Images} {c : Op × Bool} (h : Spec A c A') (ht : c.1.target ≠ some i) (hi : (A i).isSome = true) :
    A' i = A i := by
  unfold Spec at h
  split_ifs at h
  · obtain ⟨j, x, hx, rfl⟩ := h
    refine update_of_ne ?_ _ _
    intro hij
    obtain ⟨op, r⟩ := c
    cases op with
    | fork _ =>
      rw [hij, hx.1] at hi
      cases hi
    | exec _ _ _ _ | sbrk _ _ | wait _ => exact ht (congrArg some (hij.trans hx.1).symm)
  · rw [h]

theorem specs_other {A' : Images} {cs : List (Op × Bool)} (h : Trace Spec A cs A') (ht : ∀ c ∈ cs, c.1.target ≠ some i)
    (hi : (A i).isSome = true) : A' i = A i := by
  induction h with
  | nil A => rfl
  | cons hstep _ ih =>
    have hfirst := spec_other hstep (ht _ List.mem_cons_self) hi
    rw [ih (fun c hc => ht c (List.mem_cons_of_mem _ hc)) (by rw [hfirst]; exact hi), hfirst]

/-- one process, with a guard page, a stack and a kernel stack, among free pages -/
def twoPageMachine : Machine :=
  ⟨twoPages.setFree (List.range' 1029 2995), update (fun _ => none) 0 (some twoPageProc), update (fun _ => none) 0 (some 1028), 2⟩

theorem twoPageMachine_ok : Ok smallLink (fun p => p ∈ manyFree.freelist) twoPageMachine
    (update (fun _ => none) 0 (some (twoPageProc, view twoPages.page 1024))) := by
  have hdir : twoPageMachine.dir = update (fun _ => none) (some 0) (some 1024) := by
    refine (dir_setProc ⟨twoPages, fun _ => none, fun _ => none, 2⟩ 0 (some twoPageProc)).trans ?_
    congr 1
    funext j
    cases j <;> rfl
  refine ⟨?_, fun i => ?_, fun i => ?_, fun i u W hi => ?_⟩
  · rw [hdir]
    refine whole_of_rep (j := some 0) (k := some 0) (rep_take twoPages_rep rfl) rfl (fun i hi => update_of_ne hi _ _) fun k hk => ?_
    have hk' : k ≠ 0 := fun e => hk (by rw [e])
    simp only [twoPageMachine, update_of_ne hk']
  · simp only [twoPageMachine, update_apply]
    split_ifs <;> rfl
  · simp only [twoPageMachine, update_apply]
    split_ifs <;> rfl
  · simp only [update_apply] at hi
    split_ifs at hi
    cases hi
    exact ⟨fun _ _ => rfl, by decide, twoPages_exactly⟩

/-- it forks, and the child is in slot 1 -/
theorem twoPageMachine_forks : ∃ e s', step smallLink (.fork 0) twoPageMachine = .ok (true, s') ∧
    s'.proc 1 = some (twoPageProc.child e 2) := by
  have hlen : (List.range' 1030 2994).length = 2994 := List.length_range'
  have hrep := rep_take (rep_take twoPages_rep rfl) rfl
  have hall : ∀ v, v < pages 8192 → (view twoPages.page 1024 v).isSome = true :=
    fun v hv => (twoPages_exactly v (lt_trans hv (by decide))).2 hv
  obtain ⟨e, m', hcopy⟩ : ∃ e m', copyuvm smallLink 1024 8192 (twoPages.setFree (List.range' 1030 2994)) = .ok (some e, m') :=
    copyuvm_enough hrep.sound (by decide) hall (by rw [Mem.setFree, hlen]; decide)
  have hslot : (List.finRange NPROC).find? (fun j => (twoPageMachine.proc j).isNone) = some 1 := by decide
  have hproc : twoPageMachine.proc 0 = some twoPageProc := rfl
  have hfree : twoPageMachine.mem.freelist = 1029 :: List.range' 1030 2994 := rfl
  have hfork : wp (fun _ => False) (step smallLink (.fork 0))
      (fun r s' => r = true ∧ s'.proc 1 = some (twoPageProc.child e 2)) twoPageMachine := by
    simp only [step, fork, allocproc, kalloc, wp_bind, wp_get, wp_pure, wp_modify, wp_onMem, hproc, hslot, hfree]
    refine wp_of_ok hcopy ?_
    simp only [wp_bind, wp_modify, wp_pure]
    refine ⟨rfl, ?_⟩
    simp only [Machine.setProc, update_self]
    rfl
  obtain ⟨r, s', hrun, rfl, hchild⟩ := wp_total hfork
  exact ⟨e, s', hrun, hchild⟩

/-- a process that gives back a part of its memory is told so -/
theorem sbrk_gives_back {r : Bool} (h : Ok L T s A) (hp : s.proc i = some p) (hn : n < 0) (hleft : 0 < (p.sz : Int) + n)
    (hrun : step L (.sbrk i n) s = .ok (r, s')) : r = true := by
  obtain ⟨V, -, hfits⟩ := h.image hp
  have hs : p.sz < 2 ^ 31 := hfits.size
  have hsum : (addInt p.sz n : Int) = p.sz + n := addInt_eq (by omega) (by omega)
  have hstep : wp (fun _ => False) (onProc i (growproc L · n)) (fun r _ => r = true) s := by
    unfold onProc
    rw [wp_bind, wp_get, hp]
    simp only [wp_bind, wp_onMem, wp_modify, wp_pure]
    refine growproc_shrinks (h.whole.alone (dir_proc hp)) hfits.size hn fun m' _ => ?_
    rw [if_neg (by omega)]
  exact wp_ok (m := onProc i (growproc L · n)) hstep hrun

/-- the machine forks, and the child gives back its stack -/
theorem twoPageMachine_run : ∃ e s', Run smallLink twoPageMachine [(.fork 0, true), (.sbrk 1 (-4096), true)] s' ∧
    s'.proc 1 = some { twoPageProc.child e 2 with sz := 4096 } := by
  obtain ⟨e, s1, hfork, hchild⟩ := twoPageMachine_forks
  have hfirst : (Op.fork 0).Allowed twoPageMachine := trivial
  obtain ⟨A1, -, hok1⟩ := wp_ok (step_after (E := fun _ => False) twoPageMachine_ok hfirst) hfork
  have hleft : 0 < ((twoPageProc.child e 2).sz : Int) + -4096 := show (0 : Int) < 8192 + -4096 by decide
  have ha : (Op.sbrk 1 (-4096)).Allowed s1 := by
    refine ⟨by decide, fun p hp _ => .inr ?_⟩
    rw [hchild] at hp
    cases hp
    exact hleft
  obtain ⟨r, s2, hsbrk, A2, hspec, hok2⟩ := wp_total (step_after hok1 ha)
  obtain rfl := sbrk_gives_back hok1 hchild (by decide) hleft hsbrk
  refine ⟨e, s2, .cons ⟨hfirst, hfork⟩ (.cons ⟨ha, hsbrk⟩ (.nil s2)), ?_⟩
  obtain ⟨j, x, ⟨rfl, p, V, sz, hA, hsz, -, rfl⟩, rfl⟩ := hspec
  have hp := hok1.proc 1
  rw [hA, hchild] at hp
  cases hp
  obtain rfl : sz = 4096 := by
    change (sz : Int) = 8192 + -4096 at hsz
    omega
  rw [hok2.proc, update_self]
  rfl

/-- **In every run of fork, exec, sbrk and wait each physical page is in exactly one place**: on the free list, a kernel stack, or
one page, page table or directory of one process. And no call panics, whether there is memory for it or not. -/
theorem run_pages {cs : List (Op × Bool)} (h : Ok L T s A) (hr : Run L s cs s') :
    (∀ p, T p ↔ ∃ x, s'.mem.spots s'.dir s'.kstack x = some p) ∧
      (∀ p x y, s'.mem.spots s'.dir s'.kstack x = some p → s'.mem.spots s'.dir s'.kstack y = some p → x = y) ∧
      ∀ op, op.Allowed s' → ∃ r s'', step L op s' = .ok (r, s'') := by
  obtain ⟨A', -, hok⟩ := run_after h hr
  refine ⟨hok.whole.exact.used, fun p x y => hok.whole.exact.inj x y p, fun op ha => ?_⟩
  obtain ⟨r, s'', hstep, -⟩ := wp_total (step_after hok ha)
  exact ⟨r, s'', hstep⟩

theorem run_pages_twoPages : ∃ s', Run smallLink twoPageMachine [(.fork 0, true), (.sbrk 1 (-4096), true)] s' ∧
    (∀ p, p ∈ manyFree.freelist ↔ ∃ x, s'.mem.spots s'.dir s'.kstack x = some p) ∧
      ∃ r s'', step smallLink (.wait 1) s' = .ok (r, s'') := by
  obtain ⟨e, s', hr, -⟩ := twoPageMachine_run
  have hpages := run_pages twoPageMachine_ok hr
  exact ⟨s', hr, hpages.1, hpages.2.2 (.wait 1) trivial⟩

/-- **Every run is one of processes with separate address spaces.** fork copies that of the caller, exec replaces it, sbrk resizes
it, wait removes that of the zombie, and a call that fails does nothing. So a process that none of the calls is about keeps its
record and its memory, byte for byte. -/
theorem run_isolated {cs : List (Op × Bool)} (h : Ok L T s A) (hr : Run L s cs s') :
    (∃ A', Trace Spec A cs A' ∧ Ok L T s' A') ∧ ∀ i p, s.proc i = some p → (∀ c ∈ cs, c.1.target ≠ some i) →
      s'.proc i = some p ∧ ∀ v, v < UPAGES → view s'.mem.page p.pgdir v = view s.mem.page p.pgdir v := by
  obtain ⟨A', hspec, hok⟩ := run_after h hr
  refine ⟨⟨A', hspec, hok⟩, fun i p hp ht => ?_⟩
  obtain ⟨V, hV, hfits⟩ := h.image hp
  have hV' : A' i = some (p, V) := (specs_other hspec ht (by rw [hV]; rfl)).trans hV
  refine ⟨by rw [hok.proc i, hV']; rfl, fun v hv => ?_⟩
  rw [(hok.fits i p V hV').view v hv, hfits.view v hv]

/-- The child has one page left, and the parent has both of its own. -/
theorem run_isolated_twoPages : ∃ e s', Run smallLink twoPageMachine [(.fork 0, true), (.sbrk 1 (-4096), true)] s' ∧
    s'.proc 1 = some { twoPageProc.child e 2 with sz := 4096 } ∧ s'.proc 0 = some twoPageProc ∧
      view s'.mem.page 1024 0 = some (3, zeroPage) ∧ view s'.mem.page 1024 1 = some (7, fun _ => 90) := by
  obtain ⟨e, s', hr, hchild⟩ := twoPageMachine_run
  obtain ⟨hproc, hview⟩ := (run_isolated twoPageMachine_ok hr).2 0 twoPageProc rfl (by simp [Op.target])
  have hpage : ∀ v, v < 2 → view s'.mem.page 1024 v = twoPageView v := by
    intro v hv
    have hu : v < UPAGES := lt_trans hv (by decide)
    exact (hview v hu).trans (twoPages_rep.view 1024 rfl v hu)
  exact ⟨e, s', hr, hchild, hproc, hpage 0 (by decide), hpage 1 (by decide)⟩

end Xv6.Vm
