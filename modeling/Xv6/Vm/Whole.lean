/-
Who holds a physical page, for all the directories at once.

- `Spot`: the free list, a page that the kernel keeps for itself (a kernel stack, a pipe), and for each directory the page of
  the directory, its page tables and its user pages. The directories and the kernel's own pages are named by arbitrary types.
- `Whole L T m dir page`: each page of T is in exactly one of these.

Results: the code works on one directory and at most one page of its own, and `Rep` is about these.
- `whole_of_rep`: there is nothing else;
- `Whole.rep`: that part of the memory, by itself;
- `Whole.frame`: **what the code did there, put back**: all pages are in one place again;
- `Whole.ran`, `Whole.own`: the same for code that works on a directory only, or on a page of its own only. The other
  directories lead to the same contents as before (`Kept`);
- `Whole.rename`: the directories under other names.
-/
import Xv6.Vm.Args

namespace Xv6.Vm

open Bytes Owners Fallible Function Option

/-! ## Spots -/

inductive Spot (ι κ : Type) where
  | free (p : ℕ)
  | single (k : κ)
  | dir (j : ι)
  | table (j : ι) (i : ℕ)
  | user (j : ι) (v : ℕ)

variable {ι κ : Type} {L : Link} {T : ℕ → Prop} {m m' : Mem} {dir dir' : ι → Option ℕ} {page page' : κ → Option ℕ}
  {i j : ι} {k : Option κ} {hand : List (ℕ × Page)} {V : View} {K : ℕ → Option ℕ} {F : Ram} {e p : ℕ}
  {s t : Spot ι κ} {a : Place}

def Mem.spots (m : Mem) (dir : ι → Option ℕ) (page : κ → Option ℕ) : Spot ι κ → Option ℕ
  | .free p => m.held none [] (.free p)
  | .single k => page k
  | .dir j => dir j
  | .table j i => m.held (dir j) [] (.table i)
  | .user j v => m.held (dir j) [] (.user v)

structure Whole (L : Link) (T : ℕ → Prop) (m : Mem) (dir : ι → Option ℕ) (page : κ → Option ℕ) : Prop where
  nodup : m.freelist.Nodup
  exact : Exact (m.spots dir page) T
  managed : ∀ p, T p → L.Managed p

/-! ## A part of the memory -/

/-- the free list, the directory j and the page k, if there is one -/
def Spot.Part (j : ι) (k : Option κ) : Spot ι κ → Prop
  | .free _ => True
  | .single k' => k = some k'
  | .dir i => i = j
  | .table i _ => i = j
  | .user i _ => i = j

/-- a spot of the part, for code that has the page k in hand -/
def Spot.place (p : ℕ) : Spot ι κ → Place
  | .free q => .free q
  | .single _ => .hand p
  | .dir _ => .dir
  | .table _ i => .table i
  | .user _ v => .user v

/-- the pages of the part -/
def Mem.area (m : Mem) (d o : Option ℕ) (p : ℕ) : Prop := ∃ a, m.held d o.toList a = some p

theorem Spot.place_inj (hs : s.Part j k) (ht : t.Part j k) (h : s.place p = t.place p) : s = t := by
  cases s <;> cases t <;> simp_all [Spot.Part, Spot.place]

theorem spots_held (hs : s.Part j k) (h : m.spots dir page s = some p) :
    m.held (dir j) (k.bind page).toList (s.place p) = some p := by
  cases s with
  | free q => exact h
  | single k' =>
    have hk : k = some k' := hs
    have hp : page k' = some p := h
    refine held_hand ?_
    rw [hk, bind_some, hp]
    exact List.mem_singleton_self p
  | dir i | table i _ | user i _ =>
    obtain rfl : i = j := hs
    exact h

theorem held_spots (h : m.held (dir j) (k.bind page).toList a = some p) :
    ∃ s : Spot ι κ, s.Part j k ∧ m.spots dir page s = some p ∧ s.place p = a := by
  cases a with
  | free q => exact ⟨.free q, trivial, h, rfl⟩
  | hand q =>
    simp only [Mem.held] at h
    split_ifs at h with hq
    obtain rfl : q = p := some.inj h
    obtain ⟨k', hk, hp⟩ := bind_eq_some_iff.1 (mem_toList.1 hq)
    exact ⟨.single k', hk, hp, rfl⟩
  | dir => exact ⟨.dir j, rfl, h, rfl⟩
  | table n => exact ⟨.table j n, rfl, h, rfl⟩
  | user v => exact ⟨.user j v, rfl, h, rfl⟩

theorem area_iff : m.area (dir j) (k.bind page) p ↔ ∃ s : Spot ι κ, s.Part j k ∧ m.spots dir page s = some p := by
  constructor
  · intro h
    obtain ⟨a, ha⟩ := h
    obtain ⟨s, hs, hp, -⟩ := held_spots ha
    exact ⟨s, hs, hp⟩
  · intro h
    obtain ⟨s, hs, hp⟩ := h
    exact ⟨_, spots_held hs hp⟩

/-- **The part by itself**, with everything else as its frame. -/
theorem Whole.rep (h : Whole L T m dir page) (j : ι) (k : Option κ) :
    Rep L (m.area (dir j) (k.bind page)) m.page m (dir j) (withPages m.page (k.bind page).toList)
      (fun v => (dir j).elim none fun e => view m.page e v) (fun v => (dir j).elim none fun e => walk m.page e v) := by
  have hfst : (withPages m.page (k.bind page).toList).map Prod.fst = (k.bind page).toList := withPages_fst ..
  refine ⟨h.nodup, ?_, ?_, ?_, ?_, fun _ _ => rfl, ?_, ?_⟩
  · rw [hfst]
    cases k.bind page with
    | none => exact List.nodup_nil
    | some p => exact List.nodup_singleton p
  · rw [hfst]
    refine ⟨fun a b p ha hb => ?_, fun p => Iff.rfl⟩
    obtain ⟨s, -, hsp, rfl⟩ := held_spots ha
    obtain ⟨t, -, htp, rfl⟩ := held_spots hb
    rw [h.exact.inj s t p hsp htp]
  · intro p hp
    obtain ⟨s, -, hs⟩ := area_iff.1 hp
    exact h.managed p ((h.exact.used p).2 ⟨s, hs⟩)
  · intro x hx
    obtain ⟨p, -, rfl⟩ := List.mem_map.1 hx
    rfl
  · intro e he v _
    simp only [he, elim_some]
  · intro e he v _ _
    simp only [he, elim_some]

/-- one directory and one page are all that there is -/
theorem whole_of_rep (h : Rep L T F m (dir j) hand V K) (hhand : hand.map Prod.fst = (k.bind page).toList)
    (hdir : ∀ i, i ≠ j → dir i = none) (hpage : ∀ k', k ≠ some k' → page k' = none) : Whole L T m dir page := by
  have hpart : ∀ (s : Spot ι κ) p, m.spots dir page s = some p → s.Part j k := by
    intro s p hs
    by_contra hn
    cases s with
    | free q => exact hn trivial
    | single k' => rw [Mem.spots, hpage k' hn] at hs; cases hs
    | dir i | table i _ | user i _ => rw [Mem.spots, hdir i hn] at hs; cases hs
  have hexact := h.exact
  rw [hhand] at hexact
  refine ⟨h.nodup, ⟨fun s t p hs ht => ?_, fun p => ?_⟩, h.managed⟩
  · have hsj := hpart s p hs
    have htj := hpart t p ht
    exact Spot.place_inj hsj htj (hexact.inj _ _ p (spots_held hsj hs) (spots_held htj ht))
  · rw [hexact.used p]
    exact area_iff.trans (exists_congr fun s => and_iff_right_of_imp (hpart s p))

/-! ## The rest of the memory -/

theorem Whole.outside (h : Whole L T m dir page) (k : Option κ) (hij : i ≠ j) (hi : dir i = some e) :
    Outside (m.area (dir j) (k.bind page)) m.page e := by
  -- a spot of another directory holds no page of the part
  have hne : ∀ (s : Spot ι κ) p, m.spots dir page s = some p → ¬ s.Part j k → ¬ m.area (dir j) (k.bind page) p := by
    intro s p hs hpart harea
    obtain ⟨t, ht, htp⟩ := area_iff.1 harea
    rw [h.exact.inj s t p hs htp] at hpart
    exact hpart ht
  refine ⟨hne (.dir i) e hi hij, ?_, ?_⟩
  · intro n t hn ht
    refine hne (.table i n) t ?_ hij
    simp only [Mem.spots, hi]
    exact held_table hn ht
  · intro v w hv hw hP
    refine hne (.user i v) _ ?_ hij
    simp only [Mem.spots, hi]
    exact held_user hv hw hP

/-- the directories other than j lead to the contents that they led to -/
def Kept (dir : ι → Option ℕ) (j : ι) (m m' : Mem) : Prop :=
  ∀ i e, i ≠ j → dir i = some e → ∀ v, v < UPAGES → view m'.page e v = view m.page e v

theorem Kept.trans {m'' : Mem} (h : Kept dir j m m') (h' : Kept dir j m' m'') : Kept dir j m m'' :=
  fun i e hi he v hv => (h' i e hi he v hv).trans (h i e hi he v hv)

/-- j has no directory: then all of them do -/
theorem Kept.other (h : Kept dir j m m') (hj : dir j = none) (i : ι) : Kept dir i m m' := by
  intro i' e _ he
  refine h i' e ?_ he
  intro hij
  rw [hij, hj] at he
  cases he

theorem Whole.kept (h : Whole L T m dir page) (hr : ∀ p, ¬ m.area (dir j) (k.bind page) p → m'.page p = m.page p) :
    Kept dir j m m' :=
  fun _ _ hij hi _ hv => (h.outside k hij hi).view hr hv

/-- the spots outside the part hold what they held -/
theorem Whole.spots_frame (h : Whole L T m dir page) (hr : ∀ p, ¬ m.area (dir j) (k.bind page) p → m'.page p = m.page p)
    (hdir : ∀ i, i ≠ j → dir' i = dir i) (hpage : ∀ k', k ≠ some k' → page' k' = page k') (hs : ¬ s.Part j k) :
    m'.spots dir' page' s = m.spots dir page s := by
  cases s with
  | free p => exact absurd trivial hs
  | single k' => exact hpage k' hs
  | dir i => exact hdir i hs
  | table i n =>
    simp only [Mem.spots, hdir i hs]
    cases hi : dir i with
    | none => simp only [Mem.held, bind_none]
    | some e => simp only [Mem.held, bind_some, (h.outside k hs hi).tableAt hr]
  | user i v =>
    simp only [Mem.spots, hdir i hs]
    cases hi : dir i with
    | none => simp only [Mem.held, bind_none]
    | some e =>
      simp only [Mem.held, bind_some]
      split_ifs with hv
      · rw [(h.outside k hs hi).walk hr (lt_of_lt_of_le hv (by decide))]
      · rfl

/-- **The part, put back.** The code has changed the directory j and the page k; the pages of that part are still those that
it began with, and no other page has changed. Then all the pages are in one place each. -/
theorem Whole.frame (h : Whole L T m dir page)
    (hrep : Rep L (m.area (dir j) (k.bind page)) m.page m' (dir' j) hand V K)
    (hhand : hand.map Prod.fst = (k.bind page').toList) (hdir : ∀ i, i ≠ j → dir' i = dir i)
    (hpage : ∀ k', k ≠ some k' → page' k' = page k') : Whole L T m' dir' page' := by
  have hexact := hrep.exact
  rw [hhand] at hexact
  refine ⟨hrep.nodup, exact_frame (Spot.Part j k) h.exact ?_ ?_ ?_, h.managed⟩
  · exact fun s hs => h.spots_frame hrep.frame hdir hpage hs
  · intro s t p hs ht hsp htp
    exact Spot.place_inj hs ht (hexact.inj _ _ p (spots_held hs hsp) (spots_held ht htp))
  · intro p
    calc (∃ s : Spot ι κ, s.Part j k ∧ m'.spots dir' page' s = some p)
        ↔ m'.area (dir' j) (k.bind page') p := area_iff.symm
      _ ↔ m.area (dir j) (k.bind page) p := (hexact.used p).symm
      _ ↔ ∃ s : Spot ι κ, s.Part j k ∧ m.spots dir page s = some p := area_iff

/-- the directory j by itself -/
theorem Whole.alone {o : Option ℕ} (h : Whole L T m dir page) (hj : dir j = o) :
    Rep L (m.area o none) m.page m o [] (fun v => o.elim none fun e => view m.page e v)
      (fun v => o.elim none fun e => walk m.page e v) := by
  subst hj
  exact h.rep j none

/-- code that works on the directory j, which may go or come into being -/
theorem Whole.ran [DecidableEq ι] {o o' : Option ℕ} (h : Whole L T m dir page) (hj : dir j = o)
    (hrep : Rep L (m.area o none) m.page m' o' [] V K) :
    Whole L T m' (update dir j o') page ∧ Kept dir j m m' := by
  subst hj
  have hrep' : Rep L (m.area (dir j) none) m.page m' (update dir j o' j) [] V K := by
    rw [update_self]
    exact hrep
  exact ⟨h.frame (k := none) hrep' rfl (fun i hi => update_of_ne hi _ _) fun _ _ => rfl, h.kept (k := none) hrep.frame⟩

/-- code that works on a page of its own, with j for a directory that there is not -/
theorem Whole.own [DecidableEq κ] {k : κ} {x y : Option ℕ} (h : Whole L T m dir page) (hj : dir j = none) (hk : page k = x)
    (hrep : Rep L (m.area none x) m.page m' none hand V K) (hhand : hand.map Prod.fst = y.toList) :
    Whole L T m' dir (update page k y) ∧ Kept dir j m m' := by
  subst hk
  rw [← hj] at hrep
  refine ⟨h.frame (k := some k) hrep ?_ (fun _ _ => rfl) fun k' hk => ?_, h.kept (k := some k) hrep.frame⟩
  · rw [bind_some, update_self, hhand]
  · exact update_of_ne (fun e => hk (by rw [e])) _ _

/-- the directories under other names -/
def Spot.rename (f : ι → ι) : Spot ι κ → Spot ι κ
  | .free p => .free p
  | .single k => .single k
  | .dir j => .dir (f j)
  | .table j i => .table (f j) i
  | .user j v => .user (f j) v

theorem Spot.rename_symm (f : ι ≃ ι) (s : Spot ι κ) : (s.rename f.symm).rename f = s := by
  cases s <;> simp [Spot.rename]

theorem Whole.rename (h : Whole L T m dir page) (f : ι ≃ ι) : Whole L T m (fun j => dir (f j)) page := by
  have hspots : ∀ s : Spot ι κ, m.spots (fun j => dir (f j)) page s = m.spots dir page (s.rename f) := by
    intro s
    cases s <;> simp only [Mem.spots, Spot.rename]
  refine ⟨h.nodup, ⟨fun s t p hs ht => ?_, fun p => ?_⟩, h.managed⟩
  · rw [hspots] at hs ht
    rw [← Spot.rename_symm f.symm s, ← Spot.rename_symm f.symm t]
    exact congrArg _ (h.exact.inj _ _ p hs ht)
  · rw [h.exact.used p]
    constructor
    · intro hp
      obtain ⟨s, hs⟩ := hp
      exact ⟨s.rename f.symm, by rw [hspots, Spot.rename_symm, hs]⟩
    · intro hp
      obtain ⟨s, hs⟩ := hp
      exact ⟨s.rename f, by rw [← hspots, hs]⟩

end Xv6.Vm
