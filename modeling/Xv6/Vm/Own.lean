/-
Who holds a physical page, while the page tables of one directory change.

- `Place`: the free list, the hand of the code that runs (a page that kalloc has returned and that is in no table yet), the
  directory, one of its page tables, one of its user pages.
- `Rep L S F m d hand V K`: the pages of S are in exactly one place each, and no other page has changed: those are as in F. The
  process sees V through the directory d, and K is the kernel's half of it. With no directory there are only the free list and
  the hand.

Results: one rule for each thing the code does to a page. All of them keep S and F.
- `rep_take`, `rep_release`: kalloc and kfree;
- `rep_fill`: the contents of a page in hand;
- `rep_install`: a page in hand becomes a page table;
- `rep_map`, `rep_unmap`: a page in hand becomes a user page, and back;
- `rep_remap`, `rep_write`: the flags and the contents of a user page;
- `rep_kern`: an entry of the kernel's half.
-/
import Xv6.Lib.Owners
import Xv6.Vm.Tables

namespace Xv6.Vm

open Bytes Owners Function List Option

/-! ## Places -/

inductive Place where
  | free (p : ℕ)
  | hand (p : ℕ)
  | dir
  | table (i : ℕ)
  | user (v : ℕ)
deriving DecidableEq

/-- the user's pages are those below KERNBASE -/
abbrev UPAGES : ℕ := 2 ^ 19

def Mem.held (m : Mem) (d : Option ℕ) (hand : List ℕ) : Place → Option ℕ
  | .free p => if p ∈ m.freelist then some p else none
  | .hand p => if p ∈ hand then some p else none
  | .dir => d
  | .table i => d.bind fun e => if i < 1024 then Vm.table m.page e i else none
  | .user v => d.bind fun e => if v < UPAGES then (walk m.page e v).bind entryFrame else none

/-- the pages that kfree takes -/
def Link.Managed (L : Link) (p : ℕ) : Prop := L.kend ≤ p * PGSIZE ∧ p * PGSIZE < PHYSTOP

structure Rep (L : Link) (S : ℕ → Prop) (F : Ram) (m : Mem) (d : Option ℕ) (hand : List (ℕ × Page)) (V : View)
    (K : ℕ → Option ℕ) : Prop where
  nodup : m.freelist.Nodup
  handNodup : (hand.map Prod.fst).Nodup
  exact : Exact (m.held d (hand.map Prod.fst)) S
  managed : ∀ p, S p → L.Managed p
  content : ∀ x ∈ hand, m.page x.1 = x.2
  frame : ∀ p, ¬ S p → m.page p = F p
  view : ∀ e, d = some e → ∀ v, v < UPAGES → Vm.view m.page e v = V v
  kern : ∀ e, d = some e → ∀ v, UPAGES ≤ v → v < NPAGES → walk m.page e v = K v

-- the words of a page are compared by lemmas only
attribute [local irreducible] wordOf

variable {L : Link} {S : ℕ → Prop} {F : Ram} {m m' : Mem} {o : Option ℕ} {hand hand' : List (ℕ × Page)} {V V' : View}
  {K K' : ℕ → Option ℕ} {c c' : Page} {d i p q t u v w : ℕ} {ps : List ℕ} {x : ℕ × Page}

theorem managed_lt (h : L.Managed p) : p < 2 ^ 20 := by
  have := h.2
  simp only [PGSIZE, PHYSTOP] at this
  omega

theorem managed_ne_zero (h : L.Managed p) : p ≠ 0 := by
  have h1 := h.1
  have h2 := L.text
  have h3 := L.order
  simp only [PGSIZE, EXTMEM] at h1 h2
  omega

/-! ## Where the pages are -/

theorem held_free (h : p ∈ m.freelist) : m.held o ps (.free p) = some p := if_pos h

theorem held_hand (h : p ∈ ps) : m.held o ps (.hand p) = some p := if_pos h

theorem held_table (hi : i < 1024) (h : table m.page d i = some t) : m.held (some d) ps (.table i) = some t := by
  simp only [Mem.held, bind_some, if_pos hi, h]

theorem held_user (hv : v < UPAGES) (h : walk m.page d v = some w) (hp : Present w) :
    m.held (some d) ps (.user v) = some (pteFrame w) := by
  simp only [Mem.held, bind_some, if_pos hv, h, entryFrame, if_pos hp]

theorem held_user_none (h : view m.page d v = none) : m.held (some d) ps (.user v) = none := by
  simp only [Mem.held, bind_some]
  split_ifs
  · cases hw : walk m.page d v with
    | none => rfl
    | some w => rw [bind_some, entryFrame, if_neg (view_none h hw)]
  · rfl

theorem Rep.mem (h : Rep L S F m o hand V K) {a : Place} (ha : m.held o (hand.map Prod.fst) a = some p) : S p :=
  (h.exact.used p).2 ⟨a, ha⟩

theorem Rep.ne (h : Rep L S F m o hand V K) {a b : Place} (ha : m.held o (hand.map Prod.fst) a = some p)
    (hb : m.held o (hand.map Prod.fst) b = some q) (hab : a ≠ b) : p ≠ q :=
  exact_ne h.exact ha hb hab

theorem Rep.hand_held (h : x ∈ hand) : m.held o (hand.map Prod.fst) (.hand x.1) = some x.1 :=
  held_hand (mem_map_of_mem h)

/-- the places do not change when the directory and its page tables keep their contents -/
theorem held_congr (hf : m'.freelist = m.freelist) (hd : ∀ e, o = some e → m'.page e = m.page e)
    (ht : ∀ e i t, o = some e → i < 1024 → table m.page e i = some t → m'.page t = m.page t) : m'.held o ps = m.held o ps := by
  funext a
  cases a with
  | free p => simp only [Mem.held, hf]
  | hand p => rfl
  | dir => rfl
  | table i =>
    cases o with
    | none => rfl
    | some e => simp only [Mem.held, bind_some, table_congr (hd e rfl)]
  | user v =>
    cases o with
    | none => rfl
    | some e =>
      simp only [Mem.held, bind_some]
      split_ifs with hv
      · rw [walk_congr (hd e rfl) fun t => ht e _ t rfl (by simp only [UPAGES] at hv; omega)]
      · rfl

/-! ## The hand -/

/-- one page more in hand -/
theorem held_cons_hand (m : Mem) (o : Option ℕ) (p : ℕ) (ps : List ℕ) :
    m.held o (p :: ps) = update (m.held o ps) (.hand p) (some p) := by
  funext a
  by_cases ha : a = .hand p
  · rw [ha, update_self]
    exact if_pos mem_cons_self
  · rw [update_of_ne ha]
    cases a with
    | hand q => exact if_congr (by simpa using fun e => absurd (congrArg Place.hand e) ha) rfl rfl
    | _ => rfl

/-- one page more on the free list -/
theorem held_cons_free (m : Mem) (o : Option ℕ) (p : ℕ) (fs ps : List ℕ) :
    (m.setFree (p :: fs)).held o ps = update ((m.setFree fs).held o ps) (.free p) (some p) := by
  funext a
  by_cases ha : a = .free p
  · rw [ha, update_self]
    exact if_pos mem_cons_self
  · rw [update_of_ne ha]
    cases a with
    | free q => exact if_congr (by simpa [Mem.setFree] using fun e => absurd (congrArg Place.free e) ha) rfl rfl
    | _ => rfl

theorem rep_perm (h : Rep L S F m o hand V K) (hp : hand.Perm hand') : Rep L S F m o hand' V K := by
  have hmem : ∀ p, p ∈ hand'.map Prod.fst ↔ p ∈ hand.map Prod.fst := fun p => (hp.map Prod.fst).mem_iff.symm
  have hheld : m.held o (hand'.map Prod.fst) = m.held o (hand.map Prod.fst) := by
    funext a
    cases a with
    | hand p => simp only [Mem.held, hmem]
    | _ => rfl
  refine ⟨h.nodup, (hp.map Prod.fst).nodup_iff.1 h.handNodup, ?_, h.managed, ?_, h.frame, h.view, h.kern⟩
  · rw [hheld]
    exact h.exact
  · exact fun x hx => h.content x (hp.mem_iff.2 hx)

/-- kalloc takes the first page of the free list -/
theorem rep_take (h : Rep L S F m o hand V K) (hm : m.freelist = p :: ps) :
    Rep L S F (m.setFree ps) o ((p, m.page p) :: hand) V K := by
  have hnd := h.nodup
  rw [hm, nodup_cons] at hnd
  have hp : m.held o (hand.map Prod.fst) (.free p) = some p := held_free (by rw [hm]; exact mem_cons_self)
  have hout : p ∉ hand.map Prod.fst := by
    intro hin
    exact h.ne hp (held_hand hin) (by simp) rfl
  have hbefore : m.held o (hand.map Prod.fst) = update ((m.setFree ps).held o (hand.map Prod.fst)) (.free p) (some p) := by
    rw [← held_cons_free, ← hm]
    rfl
  refine ⟨hnd.2, nodup_cons.2 ⟨hout, h.handNodup⟩, ?_, h.managed, ?_, h.frame, h.view, h.kern⟩
  · rw [map_cons, held_cons_hand]
    have hfree : (m.setFree ps).held o (hand.map Prod.fst) (.free p) = none := if_neg hnd.1
    have hhand : (m.setFree ps).held o (hand.map Prod.fst) (.hand p) = none := if_neg hout
    exact exact_shift (hbefore ▸ h.exact) hfree hhand
  · intro x hx
    rcases mem_cons.1 hx with rfl | hx
    · rfl
    · exact h.content x hx

/-- the contents of a page in hand are of no concern to the directory -/
theorem rep_fill (h : Rep L S F m o ((p, c) :: hand) V K) (c' : Page) :
    Rep L S F (m.setPage p c') o ((p, c') :: hand) V K := by
  have hp : m.held o (((p, c) :: hand).map Prod.fst) (.hand p) = some p := held_hand (by simp)
  have hpage : ∀ q, q ≠ p → (m.setPage p c').page q = m.page q := fun q hq => update_of_ne hq _ _
  have hdir : ∀ e, o = some e → (m.setPage p c').page e = m.page e :=
    fun e he => hpage e (h.ne (a := .dir) he hp (by simp))
  have htab : ∀ e i t, o = some e → i < 1024 → table m.page e i = some t → (m.setPage p c').page t = m.page t := by
    intro e i t he hi ht
    subst he
    exact hpage t (h.ne (held_table hi ht) hp (by simp))
  have hwalk : ∀ e v, o = some e → v < NPAGES → walk (m.setPage p c').page e v = walk m.page e v := by
    intro e v he hv
    refine walk_congr (hdir e he) fun t ht => htab e _ t he ?_ ht
    simp only [NPAGES] at hv
    omega
  refine ⟨h.nodup, h.handNodup, ?_, h.managed, ?_, ?_, ?_, ?_⟩
  · have hheld : ∀ ps, (m.setPage p c').held o ps = m.held o ps := fun ps => held_congr rfl hdir htab
    rw [hheld]
    exact h.exact
  · intro x hx
    rcases mem_cons.1 hx with rfl | hx
    · exact update_self ..
    · have hne : x.1 ≠ p := by
        intro e
        have hnd := h.handNodup
        rw [map_cons, nodup_cons] at hnd
        exact hnd.1 (mem_map.2 ⟨x, hx, e⟩)
      rw [hpage x.1 hne]
      exact h.content x (mem_cons_of_mem _ hx)
  · intro q hq
    have hne : q ≠ p := by
      rintro rfl
      exact hq (h.mem hp)
    rw [hpage q hne]
    exact h.frame q hq
  · intro e he v hv
    have hvn : v < NPAGES := lt_of_lt_of_le hv (by decide)
    rw [view_congr (hwalk e v he hvn), h.view e he v hv]
    intro w hw hP
    subst he
    exact hpage _ (h.ne (held_user hv hw hP) hp (by simp))
  · intro e he v hv hvn
    rw [hwalk e v he hvn, h.kern e he v hv hvn]

/-- kfree puts a page back, with any contents -/
theorem rep_release (h : Rep L S F m o ((p, c) :: hand) V K) (c' : Page) :
    Rep L S F ((m.setPage p c').setFree (p :: m.freelist)) o hand V K := by
  have h' := rep_fill h c'
  have hp : (m.setPage p c').held o (((p, c') :: hand).map Prod.fst) (.hand p) = some p := held_hand (by simp)
  have hnd := h'.handNodup
  rw [map_cons, nodup_cons] at hnd
  have hout : p ∉ m.freelist := by
    intro hin
    exact h'.ne (held_free hin) hp (by simp) rfl
  have hexact := h'.exact
  rw [map_cons, held_cons_hand] at hexact
  refine ⟨nodup_cons.2 ⟨hout, h.nodup⟩, hnd.2, ?_, h.managed, ?_, h'.frame, h'.view, h'.kern⟩
  · rw [held_cons_free]
    exact exact_shift hexact (if_neg hnd.1) (if_neg hout)
  · exact fun x hx => h'.content x (mem_cons_of_mem _ hx)

/-! ## The directory -/

/-- a page in hand becomes the page table behind entry i -/
theorem rep_install (h : Rep L S F m (some d) ((p, zeroPage) :: hand) V K) (hi : i < 1024) (ht : table m.page d i = none) :
    Rep L S F (m.setWord d i (p * 4096 + 7)) (some d) hand V (fun v => if v / 1024 = i then some 0 else K v) := by
  have hp : m.held (some d) (((p, zeroPage) :: hand).map Prod.fst) (.hand p) = some p := held_hand (by simp)
  have hd : m.held (some d) (((p, zeroPage) :: hand).map Prod.fst) .dir = some d := rfl
  have hpd : p ≠ d := h.ne hp hd (by simp)
  have hlt : p < 2 ^ 20 := managed_lt (h.managed p (h.mem hp))
  have hz : m.page p = zeroPage := h.content (p, zeroPage) mem_cons_self
  have hnd := h.handNodup
  rw [map_cons, nodup_cons] at hnd
  have hpage : ∀ q, q ≠ d → (m.setWord d i (p * 4096 + 7)).page q = m.page q := fun q hq => update_of_ne hq _ _
  have hwalk : ∀ v, v < NPAGES → walk (m.setWord d i (p * 4096 + 7)).page d v =
      if v / 1024 = i then some 0 else walk m.page d v := by
    intro v hv
    refine walk_install hi hlt hpd hz fun e => ?_
    have hv' : v / 1024 < 1024 := by simp only [NPAGES] at hv; omega
    exact h.ne (held_table hv' e) hd (by simp) rfl
  have hnone : ∀ v, v / 1024 = i → walk m.page d v = none := by
    intro v hv
    rw [walk, hv, ht, map_none]
  have hheld : (m.setWord d i (p * 4096 + 7)).held (some d) (hand.map Prod.fst) =
      update (m.held (some d) (hand.map Prod.fst)) (.table i) (some p) := by
    funext a
    cases a with
    | table j =>
      have htab : table (m.setWord d i (p * 4096 + 7)).page d j = if j = i then some p else table m.page d j :=
        table_install hi hlt j
      by_cases hj : j = i
      · rw [if_pos hj, hj] at htab
        rw [hj, update_self, held_table hi htab]
      · rw [update_of_ne (by simpa using hj)]
        simp only [Mem.held, bind_some, htab, if_neg hj]
    | user v =>
      rw [update_of_ne (by simp)]
      simp only [Mem.held, bind_some]
      split_ifs with hv
      · rw [hwalk v (lt_of_lt_of_le hv (by decide))]
        split_ifs with hvi
        · rw [hnone v hvi]
          rfl
        · rfl
      · rfl
    | _ => rw [update_of_ne (by simp)]; rfl
  have hexact := h.exact
  rw [map_cons, held_cons_hand] at hexact
  refine ⟨h.nodup, hnd.2, ?_, h.managed, ?_, ?_, ?_, ?_⟩
  · rw [hheld]
    exact exact_shift hexact (if_neg hnd.1) (by simp only [Mem.held, bind_some, if_pos hi, ht])
  · intro x hx
    have hne : x.1 ≠ d := h.ne (Rep.hand_held (mem_cons_of_mem _ hx)) hd (by simp)
    rw [hpage x.1 hne]
    exact h.content x (mem_cons_of_mem _ hx)
  · intro q hq
    have hne : q ≠ d := by
      rintro rfl
      exact hq (h.mem hd)
    rw [hpage q hne]
    exact h.frame q hq
  · intro e he v hv
    obtain rfl : d = e := some.inj he
    have hvn : v < NPAGES := lt_of_lt_of_le hv (by decide)
    by_cases hvi : v / 1024 = i
    · have hw := hwalk v hvn
      rw [if_pos hvi] at hw
      rw [← h.view d rfl v hv, Vm.view, Vm.view, hw, hnone v hvi]
      rfl
    · have hw := hwalk v hvn
      rw [if_neg hvi] at hw
      rw [view_congr hw, h.view d rfl v hv]
      intro w hw hP
      exact hpage _ (h.ne (held_user hv hw hP) hd (by simp))
  · intro e he v hv hvn
    obtain rfl : d = e := some.inj he
    rw [hwalk v hvn, h.kern d rfl v hv hvn]

/-- what a word stored in a page table changes -/
structure LeafPut (m m' : Mem) (d t v w : ℕ) : Prop where
  free : m'.freelist = m.freelist
  page : ∀ q, q ≠ t → m'.page q = m.page q
  table : ∀ i, Vm.table m'.page d i = Vm.table m.page d i
  walk : ∀ u, u < NPAGES → Vm.walk m'.page d u = if u = v then some w else Vm.walk m.page d u

theorem leaf_put (h : Rep L S F m (some d) hand V K) (hv : v < NPAGES) (ht : table m.page d (v / 1024) = some t)
    (hw : w < 2 ^ 32) : LeafPut m (m.setWord t (v % 1024) w) d t v w := by
  have hv' : v / 1024 < 1024 := by simp only [NPAGES] at hv; omega
  have htd : t ≠ d := h.ne (b := .dir) (held_table hv' ht) rfl (by simp)
  have hpage : ∀ q, q ≠ t → (m.setWord t (v % 1024) w).page q = m.page q := fun q hq => update_of_ne hq _ _
  refine ⟨rfl, hpage, fun i => table_congr (hpage d htd.symm), fun u hu => walk_put ht htd (fun j hj hjt => ?_) hw hu⟩
  exact Place.table.inj (h.exact.inj _ _ t (held_table hj hjt) (held_table hv' ht))

/-- the page table itself is none of the other places -/
theorem leaf_apart (h : Rep L S F m (some d) hand V K) (hv : v < NPAGES) (ht : table m.page d (v / 1024) = some t) {a : Place}
    (ha : m.held (some d) (hand.map Prod.fst) a = some q) (hne : ∀ i, a ≠ .table i) : q ≠ t :=
  h.ne ha (held_table (by simp only [NPAGES] at hv; omega) ht) (hne _)

/-- the places other than the user page itself -/
theorem LeafPut.held (hl : LeafPut m m' d t v w) {a : Place} (ha : a ≠ .user v) :
    m'.held (some d) ps a = m.held (some d) ps a := by
  cases a with
  | free p => exact if_congr (by rw [hl.free]) rfl rfl
  | hand p | dir => rfl
  | table i => simp only [Mem.held, bind_some, hl.table]
  | user u =>
    simp only [Mem.held, bind_some]
    split_ifs with hu
    · have huv : u ≠ v := fun e => ha (by rw [e])
      rw [hl.walk u (lt_of_lt_of_le hu (by decide)), if_neg huv]
    · rfl

/-- what the process sees, other than at the page itself -/
theorem LeafPut.view (hl : LeafPut m m' d t v w) (h : Rep L S F m (some d) hand V K) (hv : v < NPAGES)
    (ht : Vm.table m.page d (v / 1024) = some t) (hu : u < UPAGES) (huv : u ≠ v) : Vm.view m'.page d u = V u := by
  have hw := hl.walk u (lt_of_lt_of_le hu (by decide))
  rw [if_neg huv] at hw
  rw [view_congr hw, h.view d rfl u hu]
  intro w hw hP
  exact hl.page _ (leaf_apart h hv ht (held_user hu hw hP) (by simp))

/-- **A word stored in a page table**: what is to be said of the page behind it. -/
theorem LeafPut.rep (hl : LeafPut m m' d t v w) (h : Rep L S F m (some d) hand V K) (hv : v < NPAGES)
    (ht : Vm.table m.page d (v / 1024) = some t) (hnd : (hand'.map Prod.fst).Nodup)
    (hexact : Exact (m'.held (some d) (hand'.map Prod.fst)) S) (hcontent : ∀ x ∈ hand', m'.page x.1 = x.2)
    (hview : ∀ u, u < UPAGES → V' u = if u = v then Vm.view m'.page d v else V u)
    (hkern : ∀ u, UPAGES ≤ u → u < NPAGES → K' u = if u = v then some w else K u) : Rep L S F m' (some d) hand' V' K' := by
  refine ⟨hl.free ▸ h.nodup, hnd, hexact, h.managed, hcontent, ?_, ?_, ?_⟩
  · intro q hq
    have hne : q ≠ t := by
      rintro rfl
      exact hq (h.mem (held_table (by simp only [NPAGES] at hv; omega) ht))
    rw [hl.page q hne]
    exact h.frame q hq
  · intro e he u hu
    obtain rfl : d = e := some.inj he
    rw [hview u hu]
    split_ifs with huv
    · rw [huv]
    · exact hl.view h hv ht hu huv
  · intro e he u hu hun
    obtain rfl : d = e := some.inj he
    rw [hl.walk u hun, hkern u hu hun, h.kern d rfl u hu hun]

/-- the pages in hand are none of the page tables -/
theorem LeafPut.content (hl : LeafPut m m' d t v w) (h : Rep L S F m (some d) hand V K) (hv : v < NPAGES)
    (ht : Vm.table m.page d (v / 1024) = some t) (hx : x ∈ hand) : m'.page x.1 = x.2 := by
  rw [hl.page x.1 (leaf_apart h hv ht (Rep.hand_held hx) (by simp))]
  exact h.content x hx

/-- a user page is not in the kernel's half -/
theorem kern_apart (hv : v < UPAGES) (hu : UPAGES ≤ u) : K u = if u = v then some w else K u :=
  (if_neg fun e : u = v => absurd hv (not_lt.2 (e ▸ hu))).symm

/-- a page in hand becomes user page v -/
theorem rep_map (h : Rep L S F m (some d) ((p, c) :: hand) V K) (hv : v < UPAGES) (hV : V v = none)
    (ht : table m.page d (v / 1024) = some t) (hw : w < 2 ^ 32) (hP : Present w) (hf : pteFrame w = p) :
    Rep L S F (m.setWord t (v % 1024) w) (some d) hand (update V v (some (pteFlags w, c))) K := by
  have hvn : v < NPAGES := lt_of_lt_of_le hv (by decide)
  have hl := leaf_put h hvn ht hw
  have hnd := h.handNodup
  rw [map_cons, nodup_cons] at hnd
  have hwv := hl.walk v hvn
  rw [if_pos rfl] at hwv
  have hheld : (m.setWord t (v % 1024) w).held (some d) (hand.map Prod.fst) =
      update (m.held (some d) (hand.map Prod.fst)) (.user v) (some p) := by
    funext a
    by_cases ha : a = .user v
    · rw [ha, update_self, held_user hv hwv hP, hf]
    · rw [update_of_ne ha, hl.held ha]
  have hexact := h.exact
  rw [map_cons, held_cons_hand] at hexact
  refine hl.rep h hvn ht hnd.2 ?_ (fun x hx => hl.content h hvn ht (mem_cons_of_mem _ hx)) ?_ fun u hu _ => kern_apart hv hu
  · rw [hheld]
    exact exact_shift hexact (if_neg hnd.1) (held_user_none ((h.view d rfl v hv).trans hV))
  · intro u _
    rw [update_apply, view_of_walk hwv hP, hf, hl.content h hvn ht mem_cons_self]

/-- user page v comes back into the hand -/
theorem rep_unmap (h : Rep L S F m (some d) hand V K) (hv : v < UPAGES) (ht : table m.page d (v / 1024) = some t)
    (hw : walk m.page d v = some w) (hP : Present w) :
    Rep L S F (m.setWord t (v % 1024) 0) (some d) ((pteFrame w, m.page (pteFrame w)) :: hand) (update V v none) K := by
  have hvn : v < NPAGES := lt_of_lt_of_le hv (by decide)
  have hl := leaf_put h hvn ht (w := 0) (by decide)
  have hu : m.held (some d) (hand.map Prod.fst) (.user v) = some (pteFrame w) := held_user hv hw hP
  have hout : pteFrame w ∉ hand.map Prod.fst := fun hin => h.ne hu (held_hand hin) (by simp) rfl
  have hwv := hl.walk v hvn
  rw [if_pos rfl] at hwv
  have hzero : Vm.view (m.setWord t (v % 1024) 0).page d v = none := by
    rw [Vm.view, hwv, bind_some, entryView, if_neg (by decide)]
  have hbefore : m.held (some d) (hand.map Prod.fst) =
      update ((m.setWord t (v % 1024) 0).held (some d) (hand.map Prod.fst)) (.user v) (some (pteFrame w)) := by
    funext a
    by_cases ha : a = .user v
    · rw [ha, update_self, hu]
    · rw [update_of_ne ha, hl.held ha]
  refine hl.rep h hvn ht (nodup_cons.2 ⟨hout, h.handNodup⟩) ?_ ?_ ?_ fun u hu _ => kern_apart hv hu
  · rw [map_cons, held_cons_hand]
    exact exact_shift (hbefore ▸ h.exact) (held_user_none hzero) (if_neg hout)
  · intro x hx
    rcases mem_cons.1 hx with rfl | hx
    · exact hl.page _ (leaf_apart h hvn ht hu (by simp))
    · exact hl.content h hvn ht hx
  · intro u _
    rw [update_apply, hzero]

/-- another word that leads to the same page -/
theorem rep_remap (h : Rep L S F m (some d) hand V K) (hv : v < UPAGES) (ht : table m.page d (v / 1024) = some t)
    (hold : walk m.page d v = some u) (hu : Present u) (hw : w < 2 ^ 32) (hP : Present w) (hf : pteFrame w = pteFrame u) :
    Rep L S F (m.setWord t (v % 1024) w) (some d) hand
      (update V v (some (pteFlags w, m.page (pteFrame u)))) K := by
  have hvn : v < NPAGES := lt_of_lt_of_le hv (by decide)
  have hl := leaf_put h hvn ht hw
  have hwv := hl.walk v hvn
  rw [if_pos rfl] at hwv
  have huser : m.held (some d) (hand.map Prod.fst) (.user v) = some (pteFrame u) := held_user hv hold hu
  have hheld : (m.setWord t (v % 1024) w).held (some d) (hand.map Prod.fst) = m.held (some d) (hand.map Prod.fst) := by
    funext a
    by_cases ha : a = .user v
    · rw [ha, held_user hv hwv hP, hf, huser]
    · exact hl.held ha
  refine hl.rep h hvn ht h.handNodup (hheld ▸ h.exact) (fun x hx => hl.content h hvn ht hx) ?_ fun u hu _ => kern_apart hv hu
  intro x _
  rw [update_apply, view_of_walk hwv hP, hf, hl.page _ (leaf_apart h hvn ht huser (by simp))]

/-- an entry of the kernel's half -/
theorem rep_kern (h : Rep L S F m (some d) hand V K) (hv : UPAGES ≤ v) (hvn : v < NPAGES)
    (ht : table m.page d (v / 1024) = some t) (hw : w < 2 ^ 32) :
    Rep L S F (m.setWord t (v % 1024) w) (some d) hand V (update K v (some w)) := by
  have hl := leaf_put h hvn ht hw
  have hheld : (m.setWord t (v % 1024) w).held (some d) (hand.map Prod.fst) = m.held (some d) (hand.map Prod.fst) := by
    funext a
    by_cases ha : a = .user v
    · simp only [ha, Mem.held, bind_some, if_neg (not_lt.2 hv)]
    · exact hl.held ha
  refine hl.rep h hvn ht h.handNodup (hheld ▸ h.exact) (fun x hx => hl.content h hvn ht hx) ?_ fun u _ _ => update_apply ..
  intro u hu
  exact (if_neg fun e : u = v => absurd hu (not_lt.2 (e ▸ hv))).symm

/-- the contents of a user page are of no concern to the tables -/
theorem write_tables (h : Rep L S F m (some d) hand V K) (hv : v < UPAGES) (hw : walk m.page d v = some w) (hP : Present w)
    (c : Page) : (m.setPage (pteFrame w) c).page d = m.page d ∧
      ∀ i t, i < 1024 → table m.page d i = some t → (m.setPage (pteFrame w) c).page t = m.page t := by
  have huser : m.held (some d) (hand.map Prod.fst) (.user v) = some (pteFrame w) := held_user hv hw hP
  refine ⟨update_of_ne (h.ne (a := .dir) rfl huser (by simp)) _ _, fun i t hi ht => ?_⟩
  exact update_of_ne (h.ne (held_table hi ht) huser (by simp)) _ _

theorem walk_write (h : Rep L S F m (some d) hand V K) (hv : v < UPAGES) (hw : walk m.page d v = some w) (hP : Present w)
    (c : Page) (hu : u < NPAGES) : walk (m.setPage (pteFrame w) c).page d u = walk m.page d u := by
  obtain ⟨hdir, htab⟩ := write_tables h hv hw hP c
  refine walk_congr hdir fun t ht => htab _ t ?_ ht
  simp only [NPAGES] at hu
  omega

/-- the contents of user page v -/
theorem rep_write (h : Rep L S F m (some d) hand V K) (hv : v < UPAGES) (hw : walk m.page d v = some w) (hP : Present w)
    (c : Page) :
    Rep L S F (m.setPage (pteFrame w) c) (some d) hand (update V v (some (pteFlags w, c))) K := by
  have huser : m.held (some d) (hand.map Prod.fst) (.user v) = some (pteFrame w) := held_user hv hw hP
  have hpage : ∀ q, q ≠ pteFrame w → (m.setPage (pteFrame w) c).page q = m.page q := fun q hq => update_of_ne hq _ _
  obtain ⟨hdir, htab⟩ := write_tables h hv hw hP c
  have hheld : ∀ ps, (m.setPage (pteFrame w) c).held (some d) ps = m.held (some d) ps := by
    intro ps
    refine held_congr rfl (fun e he => ?_) fun e i t he hi ht => ?_
    · rw [← some.inj he]
      exact hdir
    · rw [← some.inj he] at ht
      exact htab i t hi ht
  refine ⟨h.nodup, h.handNodup, ?_, h.managed, ?_, ?_, ?_, ?_⟩
  · rw [hheld]
    exact h.exact
  · intro x hx
    rw [hpage x.1 (h.ne (Rep.hand_held hx) huser (by simp))]
    exact h.content x hx
  · intro q hq
    have hne : q ≠ pteFrame w := by
      rintro rfl
      exact hq (h.mem huser)
    rw [hpage q hne]
    exact h.frame q hq
  · intro e he x hx
    obtain rfl : d = e := some.inj he
    have hwx := walk_write h hv hw hP c (lt_of_lt_of_le hx (by decide : UPAGES ≤ NPAGES))
    by_cases hxv : x = v
    · rw [hxv] at hwx ⊢
      rw [update_self, view_of_walk (hwx.trans hw) hP]
      exact congrArg (fun c => some (pteFlags w, c)) (update_self ..)
    · rw [update_of_ne hxv, view_congr hwx, h.view d rfl x hx]
      intro w' hw' hP'
      exact hpage _ (h.ne (held_user hx hw' hP') huser (by simpa using hxv))
  · intro e he x hx hxn
    obtain rfl : d = e := some.inj he
    rw [walk_write h hv hw hP c hxn]
    exact h.kern d rfl x hx hxn

end Xv6.Vm
