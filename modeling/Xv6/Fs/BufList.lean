/-
The list of the buffer cache by its pointers (bio.c), and which buffer bget recycles.

- `Bcache`: the fields of the buffers that bget and brelse read, and their pointers. `drops` are the buffers whose refcnt
  went down to 0, the latest first; the code does not read it.
- `binit`, `bget`, `brelse`: the critical sections. A loop over the list is bounded by the number of buffers; none is a loop that
  is still going on then.
- `Reach`: after binit and any sequence of bget and brelse, where other code sets the flags of a buffer at any time.

Results:
- `Reach.listed`: the pointers are one list of the head and all buffers, in the order of their drops (`Listed`);
- `bcache_lru`: **in every state that can be reached, bget ends, and on a miss takes the buffer that was dropped the longest ago**;
- `bget_bcache`, `brelse_bcache`: the sections of the cache's other model, whose `CacheSys.order` stands for the pointers, take the
  same buffers and leave the same list.
-/
import Xv6.Fs.Bio
import Xv6.Lib.Ring

namespace Xv6.Fs

open Function List

structure Bcache where
  dev : Fin NBUF → ℕ
  blockno : Fin NBUF → ℕ
  valid : Fin NBUF → Bool
  dirty : Fin NBUF → Bool
  refcnt : Fin NBUF → ℕ
  links : Links (Fin NBUF)
  drops : List (Fin NBUF)

namespace Bcache

/-! ## The source -/

/-- the pointers of a buffer are written before they are read -/
def binit : Bcache where
  dev := fun _ => 0
  blockno := fun _ => 0
  valid := fun _ => false
  dirty := fun _ => false
  refcnt := fun _ => 0
  links := (List.finRange NBUF).foldl Links.pushFront ⟨fun _ => none, fun _ => none⟩
  drops := []

/-- the test of bget's first loop -/
def holds (c : Bcache) (dev blockno : ℕ) (b : Fin NBUF) : Bool := c.dev b == dev && c.blockno b == blockno

/-- the test of the second -/
def unused (c : Bcache) (b : Fin NBUF) : Bool := c.refcnt b == 0 && !c.dirty b

def recycle (c : Bcache) (dev blockno : ℕ) (b : Fin NBUF) : Bcache :=
  { c with
    dev := update c.dev b dev
    blockno := update c.blockno b blockno
    valid := update c.valid b false
    dirty := update c.dirty b false
    refcnt := update c.refcnt b 1 }

def bget (c : Bcache) (dev blockno : ℕ) : Option (Except String (Fin NBUF × Bcache)) :=
  match Links.walk c.links.next (c.holds dev blockno) (NBUF + 1) (c.links.next none) with
  | none => none
  | some (some b) => some (.ok (b, { c with refcnt := update c.refcnt b (uint32 (c.refcnt b + 1)) }))
  | some none =>
    match Links.walk c.links.prev c.unused (NBUF + 1) (c.links.prev none) with
    | none => none
    | some (some b) => some (.ok (b, c.recycle dev blockno b))
    | some none => some (.error "bget: no buffers")

def brelse (c : Bcache) (b : Fin NBUF) : Bcache :=
  let c := { c with refcnt := update c.refcnt b (uint32 (c.refcnt b + (2 ^ 32 - 1))) }
  if c.refcnt b = 0 then { c with links := (c.links.unlink b).pushFront b, drops := b :: c.drops } else c

def setFlags (c : Bcache) (b : Fin NBUF) (valid dirty : Bool) : Bcache :=
  { c with valid := update c.valid b valid, dirty := update c.dirty b dirty }

inductive Reach : Bcache → Prop where
  | binit : Reach binit
  | bget {c c' : Bcache} {b : Fin NBUF} (dev blockno : ℕ) (h : Reach c) (hget : c.bget dev blockno = some (.ok (b, c'))) : Reach c'
  | brelse {c : Bcache} (b : Fin NBUF) (h : Reach c) : Reach (c.brelse b)
  | setFlags {c : Bcache} (b : Fin NBUF) (valid dirty : Bool) (h : Reach c) : Reach (c.setFlags b valid dirty)

/-! ## The list -/

variable {c c' : Bcache} {b : Fin NBUF} {l : List (Fin NBUF)} {dev blockno : ℕ} {links drops}

/-- when b was dropped: 0 is the latest drop, and the number of all drops stands for never -/
def age (drops : List (Fin NBUF)) (b : Fin NBUF) : ℕ := drops.idxOf b

/-- the pointers are the list l, of all buffers, by their drops -/
structure Listed (links : Links (Fin NBUF)) (drops l : List (Fin NBUF)) : Prop where
  seg : links.Seg none l none
  nodup : l.Nodup
  all : ∀ b, b ∈ l
  order : l.Pairwise fun i j => age drops i ≤ age drops j

theorem Listed.length (h : Listed links drops l) : l.length < NBUF + 1 := by
  have hcard := h.nodup.length_le_card
  rw [Fintype.card_fin] at hcard
  omega

theorem seg_foldl {bs : List (Fin NBUF)} {links : Links (Fin NBUF)} (h : links.Seg none l none) (hbs : (bs.reverse ++ l).Nodup) :
    (bs.foldl Links.pushFront links).Seg none (bs.reverse ++ l) none := by
  induction bs generalizing links l with
  | nil => exact h
  | cons b bs ih =>
    rw [reverse_cons, append_assoc] at hbs ⊢
    exact ih (Links.seg_pushFront h (nodup_append.1 hbs).2.1) hbs

theorem listed_binit : Listed binit.links binit.drops (List.finRange NBUF).reverse where
  seg := by
    have hseg : ((List.finRange NBUF).foldl Links.pushFront ⟨fun _ => none, fun _ => none⟩).Seg none
        ((List.finRange NBUF).reverse ++ []) none :=
      seg_foldl ⟨rfl, rfl⟩ (by rw [append_nil, nodup_reverse]; exact nodup_finRange NBUF)
    rwa [append_nil] at hseg
  nodup := nodup_reverse.2 (nodup_finRange NBUF)
  all b := mem_reverse.2 (mem_finRange b)
  order := pairwise_of_forall fun _ _ => le_rfl

/-- a drop puts the buffer first -/
theorem Listed.drop (h : Listed links drops l) (b : Fin NBUF) :
    Listed ((links.unlink b).pushFront b) (b :: drops) (b :: l.erase b) := by
  obtain ⟨l₁, l₂, rfl⟩ := append_of_mem (h.all b)
  have hb : b ∉ l₁ := fun hmem => (nodup_append.1 h.nodup).2.2 b hmem b mem_cons_self rfl
  have herase : (l₁ ++ b :: l₂).erase b = l₁ ++ l₂ := by rw [erase_append_right _ hb, erase_cons_head]
  have hnodup : (b :: (l₁ ++ l₂)).Nodup := nodup_middle.1 h.nodup
  have hlater : ∀ j ∈ l₁ ++ l₂, age (b :: drops) j = age drops j + 1 := by
    intro j hj
    exact idxOf_cons_ne _ fun heq => (nodup_cons.1 hnodup).1 (heq ▸ hj)
  rw [herase]
  refine ⟨Links.seg_pushFront (Links.seg_unlink h.seg h.nodup) hnodup, hnodup, ?_, pairwise_cons.2 ⟨?_, ?_⟩⟩
  · intro j
    exact perm_middle.subset (h.all j)
  · intro j _
    rw [age, idxOf_cons_self]
    exact Nat.zero_le _
  · have hrest : (l₁ ++ l₂).Pairwise fun i j => age drops i ≤ age drops j :=
      h.order.sublist ((sublist_cons_self b l₂).append_left l₁)
    refine hrest.imp_of_mem ?_
    intro i j hi hj hle
    rw [hlater i hi, hlater j hj]
    exact Nat.succ_le_succ hle

/-! ## bget -/

/-- bget, by the list -/
theorem bget_listed (h : Listed c.links c.drops l) : c.bget dev blockno =
    match l.find? (c.holds dev blockno), l.reverse.find? c.unused with
    | some b, _ => some (.ok (b, { c with refcnt := update c.refcnt b (uint32 (c.refcnt b + 1)) }))
    | none, some b => some (.ok (b, c.recycle dev blockno b))
    | none, none => some (.error "bget: no buffers") := by
  rw [bget, Links.walk_next h.seg h.length, Links.walk_prev h.seg h.length]
  cases l.find? (c.holds dev blockno) with
  | some b => rfl
  | none => cases l.reverse.find? c.unused <;> rfl

/-- bget moves no buffer -/
theorem bget_links (h : Listed c.links c.drops l) (hget : c.bget dev blockno = some (.ok (b, c'))) :
    c'.links = c.links ∧ c'.drops = c.drops := by
  rw [bget_listed h] at hget
  split at hget
  · cases hget
    exact ⟨rfl, rfl⟩
  · cases hget
    exact ⟨rfl, rfl⟩
  · cases hget

theorem Reach.listed (h : Reach c) : ∃ l, Listed c.links c.drops l := by
  induction h with
  | binit => exact ⟨_, listed_binit⟩
  | bget dev blockno _ hget ih =>
    obtain ⟨l, hl⟩ := ih
    obtain ⟨hlinks, hdrops⟩ := bget_links hl hget
    rw [hlinks, hdrops]
    exact ⟨l, hl⟩
  | @brelse c b _ ih =>
    obtain ⟨l, hl⟩ := ih
    rw [Bcache.brelse]
    split_ifs
    · exact ⟨_, hl.drop b⟩
    · exact ⟨l, hl⟩
  | setFlags b valid dirty _ ih => exact ih

/-- the last unused buffer of the list is the oldest -/
theorem Listed.oldest {P : Fin NBUF → Bool} (h : Listed links drops l) (hb : l.reverse.find? P = some b) :
    P b = true ∧ ∀ j, P j = true → age drops j ≤ age drops b := by
  obtain ⟨hP, as, bs, heq, has⟩ := find?_eq_some_iff_append.1 hb
  have hl : l = bs.reverse ++ b :: as.reverse := by
    rw [← reverse_reverse l, heq, reverse_append, reverse_cons, append_assoc]
    rfl
  refine ⟨hP, ?_⟩
  intro j hj
  have hmem := h.all j
  rw [hl, mem_append, mem_cons] at hmem
  have horder := h.order
  rw [hl, pairwise_append] at horder
  rcases hmem with hbefore | rfl | hafter
  · exact horder.2.2 j hbefore b mem_cons_self
  · exact le_rfl
  · have hnot := has j (mem_reverse.1 hafter)
    rw [hj] at hnot
    cases hnot

/-- **The list of the buffer cache is whole and by recency, and bget recycles the buffer that was dropped the longest ago.** -/
theorem bcache_lru (c : Bcache) (h : Reach c) : (∃ l, Listed c.links c.drops l) ∧ ∀ dev blockno,
    (∃ b, c.holds dev blockno b = true ∧
      c.bget dev blockno = some (.ok (b, { c with refcnt := update c.refcnt b (uint32 (c.refcnt b + 1)) }))) ∨
    (∀ b, c.holds dev blockno b = false) ∧
      ((∃ b, c.unused b = true ∧ (∀ j, c.unused j = true → age c.drops j ≤ age c.drops b) ∧
          c.bget dev blockno = some (.ok (b, c.recycle dev blockno b))) ∨
        (∀ b, c.unused b = false) ∧ c.bget dev blockno = some (.error "bget: no buffers")) := by
  obtain ⟨l, hl⟩ := h.listed
  refine ⟨⟨l, hl⟩, ?_⟩
  intro dev blockno
  have hget : c.bget dev blockno = _ := bget_listed hl
  cases hhit : l.find? (c.holds dev blockno) with
  | some b =>
    rw [hhit] at hget
    exact .inl ⟨b, find?_some hhit, hget⟩
  | none =>
    have hmiss : ∀ b, c.holds dev blockno b = false := by
      intro b
      exact Bool.eq_false_iff.2 (find?_eq_none.1 hhit b (hl.all b))
    refine .inr ⟨hmiss, ?_⟩
    cases hold : l.reverse.find? c.unused with
    | some b =>
      rw [hhit, hold] at hget
      obtain ⟨hunused, hage⟩ := hl.oldest hold
      exact .inl ⟨b, hunused, hage, hget⟩
    | none =>
      rw [hhit, hold] at hget
      refine .inr ⟨?_, hget⟩
      intro b
      exact Bool.eq_false_iff.2 (find?_eq_none.1 hold b (mem_reverse.2 (hl.all b)))

/-- n blocks have been asked for -/
def asked : ℕ → Bcache
  | 0 => binit
  | n + 1 =>
    match (asked n).bget 1 n with
    | some (.ok (_, c)) => c
    | _ => asked n

theorem reach_asked (n : ℕ) : Reach (asked n) := by
  induction n with
  | zero => exact .binit
  | succ n ih =>
    rw [asked]
    split
    · exact .bget 1 n ih (by assumption)
    · exact ih

/-- every buffer is in use, and then 3 and 7 are dropped -/
def dropped : Bcache := ((asked NBUF).brelse 3).brelse 7

/-- Both are in front, the later drop first, and the next block goes into buffer 3. -/
theorem bcache_lru_dropped : (∃ l, Listed dropped.links dropped.drops l) ∧ dropped.drops = [7, 3] ∧
    dropped.bget 1 NBUF = some (.ok (3, dropped.recycle 1 NBUF 3)) := by
  obtain ⟨hlist, hget⟩ := bcache_lru dropped (.brelse 7 (.brelse 3 (reach_asked NBUF)))
  have hstate : dropped.drops = [7, 3] ∧ (∀ b, dropped.holds 1 NBUF b = false) ∧
      ∀ b, dropped.unused b = decide (b = 3 ∨ b = 7) := by decide +kernel
  obtain ⟨hdrops, hmiss, hunused⟩ := hstate
  refine ⟨hlist, hdrops, ?_⟩
  rcases hget 1 NBUF with ⟨b, hb, -⟩ | ⟨-, ⟨b, hb, hold, hbget⟩ | ⟨hnone, -⟩⟩
  · exact absurd hb (by simp [hmiss])
  · have hle := hold 3 (by simp [hunused])
    rw [hunused, decide_eq_true_iff] at hb
    rw [hdrops] at hle
    rcases hb with rfl | rfl
    · exact hbget
    · exact absurd hle (by decide)
  · exact absurd (hnone 3) (by simp [hunused])

end Bcache

/-! ## The other model -/

/-- the buffers of `CacheSys`, with pointers -/
def CacheSys.bcache (s : CacheSys) (links : Links (Fin NBUF)) (drops : List (Fin NBUF)) : Bcache where
  dev b := (s.buf b).dev
  blockno b := (s.buf b).blockno
  valid b := (s.buf b).valid
  dirty b := (s.buf b).dirty
  refcnt b := (s.buf b).refcnt
  links := links
  drops := drops

section Order

variable {s : CacheSys} {links : Links (Fin NBUF)} {drops : List (Fin NBUF)} {b : Fin NBUF} {p x : ℕ}

theorem boot_bcache (start : ℕ) (size : Int) (disksize : ℕ) (d : Disk) :
    Bcache.binit = (CacheSys.boot start size disksize d).bcache Bcache.binit.links [] ∧
      Bcache.Listed Bcache.binit.links [] (CacheSys.boot start size disksize d).order :=
  ⟨rfl, Bcache.listed_binit⟩

/-- a buffer is written -/
theorem bcache_modBuf (f : Buffer → Buffer) : (s.modBuf b f).bcache links drops =
    ⟨update (s.buf · |>.dev) b (f (s.buf b)).dev, update (s.buf · |>.blockno) b (f (s.buf b)).blockno,
      update (s.buf · |>.valid) b (f (s.buf b)).valid, update (s.buf · |>.dirty) b (f (s.buf b)).dirty,
      update (s.buf · |>.refcnt) b (f (s.buf b)).refcnt, links, drops⟩ := by
  simp only [CacheSys.bcache, CacheSys.modBuf, Bcache.mk.injEq, and_true]
  refine ⟨?_, ?_, ?_, ?_, ?_⟩ <;> exact funext fun j => apply_update (fun _ => _) s.buf b _ j

/-- only the count is written -/
theorem bcache_count (n : ℕ) : (s.modBuf b ({ · with refcnt := n })).bcache links drops =
    { s.bcache links drops with refcnt := update (s.bcache links drops).refcnt b n } := by
  rw [bcache_modBuf]
  simp only [CacheSys.bcache, Bcache.mk.injEq, and_true]
  refine ⟨?_, ?_, ?_, ?_⟩ <;> exact update_eq_self (f := fun j => _) ..

/-- bget takes the buffer that the order gives -/
theorem bget_bcache (h : Bcache.Listed links drops s.order) (hrefs : ∀ b, (s.buf b).refcnt + 1 < 2 ^ 32) :
    (s.bcache links drops).bget 1 x = match (s.bget p x).call p with
      | .waits b _ => some (.ok (b, (s.bget p x).bcache links drops))
      | .panicked m => some (.error m)
      | _ => none := by
  have hcached : s.cached x = s.order.find? ((s.bcache links drops).holds 1 x) := by
    refine congrArg (find? · s.order) (funext fun i => ?_)
    rw [Bool.decide_and]
    rfl
  have hunused : s.unused = s.order.reverse.find? (s.bcache links drops).unused := by
    refine congrArg (find? · s.order.reverse) (funext fun i => ?_)
    rw [Bool.decide_and, decide_not, Bool.decide_eq_true]
    rfl
  rw [Bcache.bget_listed h, CacheSys.bget, ← hcached, ← hunused]
  cases s.cached x with
  | some b =>
    simp only [CacheSys.setCall, update_self]
    rw [show uint32 ((s.bcache links drops).refcnt b + 1) = (s.buf b).refcnt + 1 from uint32_eq (hrefs b), ← bcache_count]
    rfl
  | none =>
    cases s.unused with
    | some b =>
      simp only [CacheSys.setCall, update_self]
      rw [show (s.bcache links drops).recycle 1 x b = _ from (bcache_modBuf
        ({ · with dev := 1, blockno := x, valid := false, dirty := false, refcnt := 1 })).symm]
      rfl
    | none => simp only [CacheSys.setCall, update_self]

/-- brelse's critical section -/
theorem brelse_bcache (h : Bcache.Listed links drops s.order) (hpos : 0 < (s.buf b).refcnt) (hlt : (s.buf b).refcnt < 2 ^ 32) :
    ∃ links' drops', (s.bcache links drops).brelse b = (s.drop p b).bcache links' drops' ∧
      Bcache.Listed links' drops' (s.drop p b).order := by
  have hdec : uint32 ((s.bcache links drops).refcnt b + (2 ^ 32 - 1)) = (s.buf b).refcnt - 1 := by
    unfold uint32
    simp only [CacheSys.bcache]
    omega
  have hnew : ((s.modBuf b ({ · with refcnt := (s.buf b).refcnt - 1 })).buf b).refcnt = (s.buf b).refcnt - 1 := by
    simp only [CacheSys.modBuf, update_self]
  rw [Bcache.brelse, hdec, ← bcache_count, CacheSys.drop]
  by_cases hz : (s.buf b).refcnt - 1 = 0
  · rw [if_pos (by exact hnew.trans hz), if_pos (by exact hnew.trans hz)]
    exact ⟨_, _, rfl, h.drop b⟩
  · rw [if_neg (by exact fun e => hz (hnew.symm.trans e)), if_neg (by exact fun e => hz (hnew.symm.trans e))]
    exact ⟨links, drops, rfl, h⟩

end Order

end Xv6.Fs
