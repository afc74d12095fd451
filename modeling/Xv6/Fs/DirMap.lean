/-
A directory is a finite map (fs.c, sysfile.c).

- `Key`: a name as the entries keep it, at most DIRSIZ bytes and no NUL. `key name`: the bytes of a name before its first NUL, cut to
  DIRSIZ.
- `dirMap v d`: the inode number that directory d has for a key.
- `IsMap v d`: no two entries of d in use have the same key, the first two entries are "." and "..", and d has no half entry.
- `MapAt R v s`: in the middle of a call, every directory of the image v is a map.
- `DirOp`: create (of a file, a directory or a device), link and unlink with their paths. mkdir is a create.

Results:
- `isMap_put`, `isMap_clear`: an entry is added or taken away, in the map as in the slots;
- one lemma for each call (`iput_map`, `namex_map`, `createNew_map`, `link_map`, ...): the directories stay maps;
- `dirRun_map`: so they do along every run;
- `directory_is_map`: **in every state that a run reaches, every directory is a finite map**.
-/
import Xv6.Fs.Filewrite
import Xv6.Fs.Resolve

namespace Xv6.Fs

open Fallible Holders Function List Option

attribute [local semireducible] wp

variable {sb : Super} {dev : Devsw} {s s' : Icache} {v w : Image} {R : Ino → ℕ} {e ip dp c : Ino} {name name' : Name} {d n t : ℕ}
  {path old new : Path}

/-! ## Keys -/

@[ext] structure Key where
  bytes : Name
  short : bytes.length ≤ DIRSIZ
  noNul : ∀ c ∈ bytes, c ≠ 0
deriving DecidableEq

def key (name : Name) : Key where
  bytes := (name.takeWhile (· ≠ 0)).take DIRSIZ
  short := length_take_le ..
  noNul := fun c hc => by simpa using mem_takeWhile_imp (mem_of_mem_take hc)

/-- strncmp and strncpy look at the key -/
theorem key_bytes (name : Name) : (key name).bytes = name.cut := take_takeWhile

theorem Key.cut (k : Key) : Name.cut k.bytes = k.bytes := by
  rw [Name.cut, take_of_length_le k.short]
  refine takeWhile_eq_self_iff.2 fun c hc => ?_
  simpa using k.noNul c hc

theorem key_self (k : Key) : key k.bytes = k := Key.ext ((key_bytes k.bytes).trans k.cut)

theorem key_eq : key name = key name' ↔ name.cut = Name.cut name' := by
  rw [Key.ext_iff, key_bytes, key_bytes]

/-! ## Maps -/

def dirMap (sb : Super) (v : Image) (d : ℕ) (k : Key) : Option ℕ := (lookup sb v d k.bytes).map Prod.fst

structure IsMap (sb : Super) (v : Image) (d : ℕ) : Prop where
  keys : ∀ {t t' n n' nm}, slot sb v d t = some (n, nm) → slot sb v d t' = some (n', nm) → t = t'
  first : ∃ n, slot sb v d 0 = some (n, dot)
  second : ∃ n, slot sb v d 1 = some (n, dotdot)
  whole : (v.inode d).size % DESIZE = 0

theorem lookup_key (name : Name) : lookup sb v d (key name).bytes = lookup sb v d name := by
  have hcut : Name.cut (key name).bytes = name.cut := by rw [(key name).cut, key_bytes]
  unfold lookup
  congr 1
  funext t
  rw [hit, hit, hcut]

theorem dirMap_key (name : Name) : dirMap sb v d (key name) = (lookup sb v d name).map Prod.fst := by
  rw [dirMap, lookup_key]

/-- the name in a slot is a key -/
theorem slot_key {nm : Name} (h : slot sb v d t = some (n, nm)) : (key nm).bytes = nm := by
  have hin := slot_inside (by rw [h]; simp)
  rw [slot, if_pos hin, Dirent.link] at h
  split_ifs at h
  have hnm : (direntAt sb v d t).name.cut = nm := (Prod.mk.inj (some.inj h)).2
  rw [← hnm, ← key_bytes, key_self]

theorem dirMap_some {k : Key} (h : IsMap sb v d) : dirMap sb v d k = some n ↔ ∃ t, slot sb v d t = some (n, k.bytes) := by
  constructor
  · intro hk
    obtain ⟨p, hp, rfl⟩ := map_eq_some_iff.1 hk
    have hslot := lookup_some (n := p.1) (t := p.2) hp
    rw [k.cut] at hslot
    exact ⟨p.2, hslot⟩
  · intro hex
    obtain ⟨t, ht⟩ := hex
    cases hlook : lookup sb v d k.bytes with
    | none => exact absurd (k.cut.symm ▸ ht) (lookup_none hlook t n)
    | some p =>
      have hslot := lookup_some (n := p.1) (t := p.2) hlook
      rw [k.cut] at hslot
      obtain rfl := h.keys ht hslot
      rw [ht] at hslot
      rw [dirMap, hlook, map_some]
      exact congrArg some (Prod.mk.inj (some.inj hslot)).1.symm

/-- **Only finitely many keys are bound.** -/
theorem dirMap_finite : {k | dirMap sb v d k ≠ none}.Finite := by
  have hD := DESIZE_eq
  have hsub : {k | dirMap sb v d k ≠ none} ⊆ ⋃ t ∈ Set.Iio ((v.inode d).size / DESIZE),
      {k | ∃ n, slot sb v d t = some (n, k.bytes)} := by
    intro k hk
    obtain ⟨n, hn⟩ := ne_none_iff_exists'.1 hk
    obtain ⟨p, hp, -⟩ := map_eq_some_iff.1 hn
    have hslot := lookup_some (n := p.1) (t := p.2) hp
    rw [k.cut] at hslot
    have hin := slot_inside (by rw [hslot]; simp)
    refine Set.mem_biUnion ?_ ⟨p.1, hslot⟩
    rw [Set.mem_Iio]
    rw [hD] at hin ⊢
    omega
  refine Set.Finite.subset (Set.Finite.biUnion (Set.finite_Iio _) fun t _ => Set.Subsingleton.finite ?_) hsub
  intro k hk k' hk'
  obtain ⟨n, hn⟩ := hk
  obtain ⟨n', hn'⟩ := hk'
  rw [hn] at hn'
  exact Key.ext (Prod.mk.inj (some.inj hn')).2

theorem isMap_same (hs : SameDir sb v w d) (h : IsMap sb v d) : IsMap sb w d := by
  refine ⟨fun {t t' n n' nm} ht ht' => ?_, ?_, ?_, ?_⟩
  · rw [hs.slots] at ht ht'
    exact h.keys ht ht'
  · rw [hs.slots]
    exact h.first
  · rw [hs.slots]
    exact h.second
  · rw [hs.size]
    exact h.whole

theorem dirMap_same (hs : SameDir sb v w d) : dirMap sb w d = dirMap sb v d := by
  funext k
  rw [dirMap, dirMap, hs.lookup]

theorem isMap_new (h : NewDir sb v d n) : IsMap sb v n := by
  have hD := DESIZE_eq
  refine ⟨fun {t t' m m' nm} ht ht' => ?_, ⟨n, h.slots 0⟩, ⟨d, h.slots 1⟩, by rw [h.size, hD]⟩
  rw [h.slots] at ht ht'
  have hne : dot ≠ dotdot := by decide
  split_ifs at ht ht' with h0 h0' h1' h1 h0' h1'
  · omega
  · cases ht
    exact absurd (Prod.mk.inj (some.inj ht')).2.symm hne
  · cases ht
    exact absurd (Prod.mk.inj (some.inj ht')).2 hne
  · omega

/-- the size after an entry has been written -/
theorem filled_whole {x : Option (ℕ × Name)} (hf : Filled sb v w d t x) (h : (v.inode d).size % DESIZE = 0) :
    (w.inode d).size % DESIZE = 0 := by
  have hD := DESIZE_eq
  rw [hf.fields]
  show max (v.inode d).size (DESIZE * t + DESIZE) % DESIZE = 0
  rw [hD] at h ⊢
  omega

/-- the slot of k, or an empty one, is given what k is to name -/
theorem isMap_fill {k : Key} {x : Option ℕ} (h : IsMap sb v d) (hf : Filled sb v w d t (x.map fun n => (n, k.bytes)))
    (hold : ∀ {n nm}, slot sb v d t = some (n, nm) → nm = k.bytes)
    (hother : ∀ {t' n}, slot sb v d t' = some (n, k.bytes) → t' = t) (hdot : key dot ≠ k) (hdotdot : key dotdot ≠ k) :
    IsMap sb w d ∧ dirMap sb w d = update (dirMap sb v d) k x := by
  have hnew : ∀ {n nm}, (x.map fun n => (n, k.bytes)) = some (n, nm) → x = some n ∧ nm = k.bytes := by
    intro n nm hx
    cases x <;> simp_all
  have hkept : ∀ {t' m k'}, k' ≠ k → slot sb v d t' = some (m, Key.bytes k') → slot sb w d t' = some (m, k'.bytes) := by
    intro t' m k' hk ht'
    have hne : t' ≠ t := by
      rintro rfl
      exact hk (Key.ext (hold ht'))
    rw [hf.slots, if_neg hne, ht']
  have hmap : IsMap sb w d := by
    refine ⟨fun {t1 t2 n1 n2 nm} h1 h2 => ?_, ?_, ?_, filled_whole hf h.whole⟩
    · rw [hf.slots] at h1 h2
      split_ifs at h1 h2 with e1 e2 e2
      · rw [e1, e2]
      · rw [(hnew h1).2] at h2
        exact e1.trans (hother h2).symm
      · rw [(hnew h2).2] at h1
        exact (hother h1).trans e2.symm
      · exact h.keys h1 h2
    · obtain ⟨m, hm⟩ := h.first
      exact ⟨m, hkept hdot hm⟩
    · obtain ⟨m, hm⟩ := h.second
      exact ⟨m, hkept hdotdot hm⟩
  refine ⟨hmap, funext fun k' => Option.ext fun m => ?_⟩
  rw [dirMap_some hmap]
  by_cases hk : k' = k
  · rw [hk, update_self]
    constructor
    · rintro ⟨t', ht'⟩
      rw [hf.slots] at ht'
      split_ifs at ht' with heq
      · exact (hnew ht').1
      · exact absurd (hother ht') heq
    · intro hx
      exact ⟨t, by rw [hf.slots, if_pos rfl, hx]; rfl⟩
  · rw [update_of_ne hk, dirMap_some h]
    constructor
    · rintro ⟨t', ht'⟩
      rw [hf.slots] at ht'
      split_ifs at ht' with heq
      · exact absurd (Key.ext (hnew ht').2) hk
      · exact ⟨t', ht'⟩
    · rintro ⟨t', ht'⟩
      exact ⟨t', hkept hk ht'⟩

/-- **A new key is bound, and no other.** -/
theorem isMap_put {k : Key} (h : IsMap sb v d) (hf : Filled sb v w d t (some (n, k.bytes))) (hempty : slot sb v d t = none)
    (hnone : dirMap sb v d k = none) : IsMap sb w d ∧ dirMap sb w d = update (dirMap sb v d) k (some n) := by
  have hother : ∀ {t' n'}, slot sb v d t' ≠ some (n', k.bytes) := by
    intro t' n' ht'
    rw [(dirMap_some h).2 ⟨t', ht'⟩] at hnone
    cases hnone
  refine isMap_fill (x := some n) h hf (fun hs => ?_) (fun hs => absurd hs hother) ?_ ?_
  · rw [hempty] at hs
    cases hs
  · rintro rfl
    obtain ⟨m, hm⟩ := h.first
    exact hother hm
  · rintro rfl
    obtain ⟨m, hm⟩ := h.second
    exact hother hm

/-- **A key is bound no longer, and the others stay.** -/
theorem isMap_clear {k : Key} (h : IsMap sb v d) (hf : Filled sb v w d t none) (hslot : slot sb v d t = some (n, k.bytes))
    (hdot : k ≠ key dot) (hdotdot : k ≠ key dotdot) :
    IsMap sb w d ∧ dirMap sb w d = update (dirMap sb v d) k none := by
  refine isMap_fill (x := none) h hf (fun hs => ?_) (fun hs => h.keys hs hslot) hdot.symm hdotdot.symm
  rw [hslot] at hs
  exact (Prod.mk.inj (some.inj hs)).2.symm

/-! ## Every directory of an image -/

def Dirs (sb : Super) (v : Image) : Prop := ∀ d, isDir sb v d → IsMap sb v d

theorem dirs_same (h : Dirs sb v) (hs : ∀ d, isDir sb w d → SameDir sb v w d ∧ isDir sb v d) : Dirs sb w := by
  intro d hd
  obtain ⟨hsame, hold⟩ := hs d hd
  exact isMap_same hsame (h d hold)

theorem SameDir.isDir (h : SameDir sb v w d) : Fs.isDir sb w d ↔ Fs.isDir sb v d := by
  rw [Fs.isDir, Fs.isDir, allocated, allocated, h.type]

/-- one directory changes -/
theorem dirs_apart (h : Dirs sb v) (ha : Apart sb n v w) (hn : isDir sb w n → IsMap sb w n) : Dirs sb w := by
  intro d hd
  by_cases hdn : d = n
  · rw [hdn] at hd ⊢
    exact hn hd
  · have hsame := sameDir_apart ha hdn
    exact isMap_same hsame (h d (hsame.isDir.1 hd))

theorem dirs_fields {di : Dinode} (h : Dirs sb v) (hal : allocated sb v n) (ht : di.type = (v.inode n).type)
    (hs : di.size = (v.inode n).size) (ha : di.addrs = (v.inode n).addrs) : Dirs sb (v.setInode n di) := by
  refine dirs_same h fun d hd => ?_
  have hsame : SameDir sb v (v.setInode n di) d := sameDir_fields hal ht hs ha
  exact ⟨hsame, hsame.isDir.1 hd⟩

theorem dirs_emptied (h : Dirs sb v) (he : Emptied sb R v s e w) : Dirs sb w := by
  by_cases hf : Frees R v s e
  · refine dirs_apart h he.apart fun hd => ?_
    rw [isDir, he.type hf] at hd
    exact absurd hd.2 (by decide)
  · rw [he.kept hf]
    exact h

/-! ## In the middle of a call -/

structure MapAt (sb : Super) (R : Ino → ℕ) (v : Image) (s : Icache) : Prop extends At sb R v s where
  dirs : Dirs sb v
  nums : ∀ e, 0 < R e → (s.inode e).inum ≠ 0

/-- the entries in use still stand for the same inodes -/
theorem MapAt.keep (h : MapAt sb R v s) (h' : At sb R w s') (hd : Dirs sb w) (hs : Same R s s') : MapAt sb R w s' := by
  refine ⟨h', hd, fun e he => ?_⟩
  rw [(hs e he).1]
  exact h.nums e he

/-- one entry more -/
theorem MapAt.more (h : MapAt sb R v s) (h' : At sb (R + one (some e)) w s') (hd : Dirs sb w) (hs : Same R s s')
    (he : (s'.inode e).inum ≠ 0) : MapAt sb (R + one (some e)) w s' := by
  refine ⟨h', hd, fun a ha => ?_⟩
  by_cases hae : a = e
  · rw [hae]
    exact he
  · have hpos : 0 < R a := by simpa [one_some, Ne.symm hae] using ha
    rw [(hs a hpos).1]
    exact h.nums a hpos

theorem MapAt.less (h : MapAt sb (R + one (some e)) v s) (h' : At sb R w s') (hd : Dirs sb w) (hs : Same R s s') :
    MapAt sb R w s' := by
  refine ⟨h', hd, fun a ha => ?_⟩
  rw [(hs a ha).1]
  exact h.nums a (Nat.lt_add_right _ ha)

/-- an entry in use stands for an inode of the disk -/
theorem MapAt.number (h : MapAt sb R v s) (he : 0 < R e) : (s.inode e).inum ≠ 0 ∧ (s.inode e).inum < sb.ninodes := by
  refine ⟨h.nums e he, h.ok.inum e ?_⟩
  rw [← h.refs] at he
  exact he

/-- whatever the image has become -/
def MapIn (sb : Super) (R : Ino → ℕ) (s : Icache) : Prop := MapAt sb R (imageOf sb s.disk) s

theorem MapAt.now (h : MapAt sb R v s) : MapIn sb R s := by
  rw [MapIn, h.image]
  exact h

theorem iget_map (h : MapAt sb R v s) (hn : n < sb.ninodes) (h0 : n ≠ 0) : wp anyhow (iget n) (fun e s' =>
    MapAt sb (R + one (some e)) v s' ∧ s'.locks = s.locks ∧ (s'.inode e).inum = n ∧ Same R s s') s := by
  have hspec := wp_and (wp_allow (iget_ok h.ok hn) fine_anyhow) (iget_refs h.refs)
  refine wp_mono (wp_and hspec iget_same) ?_
  rintro e s' ⟨⟨⟨hok, hl⟩, href⟩, hdisk, hnum, hsame⟩
  rw [h.refs] at hsame
  exact ⟨h.more ⟨hok, hdisk ▸ h.image, href⟩ h.dirs hsame (by rw [hnum]; exact h0), hl, hnum, hsame⟩

theorem ilock_map (h : MapAt sb R v s) : wp anyhow (ilock sb e) (fun _ s' => MapAt sb R v s' ∧ s.locks e = false ∧
    s'.locks = update s.locks e true ∧ Still s s') s := by
  refine wp_mono (ilock_at h.toAt) ?_
  rintro - s' ⟨h', hfree, hl, hs⟩
  exact ⟨h.keep h' h.dirs hs.same, hfree, hl, hs⟩

theorem iunlock_map (h : MapAt sb R v s) : wp anyhow (iunlock e) (fun _ s' => MapAt sb R v s' ∧
    s'.locks = update s.locks e false) s := by
  refine wp_mono (iunlock_at h.toAt) ?_
  rintro - s' ⟨h', hl, hs⟩
  exact ⟨h.keep h' h.dirs hs.same, hl⟩

theorem iput_map (hsb : sb.Ok) (h : MapAt sb (R + one (some e)) v s) : wp anyhow (iput sb e) (fun _ s' =>
    MapIn sb R s' ∧ s'.locks = s.locks) s := by
  refine wp_mono (iput_emptied hsb h.toAt) ?_
  rintro - s' ⟨w, h', hl, hs, hd⟩
  exact ⟨(h.less h' (dirs_emptied h.dirs hd) hs).now, hl⟩

theorem iunlockput_map (hsb : sb.Ok) (h : MapAt sb (R + one (some e)) v s) : wp anyhow (iunlockput sb e) (fun _ s' =>
    MapIn sb R s' ∧ s'.locks = update s.locks e false) s := by
  refine wp_seq (iunlock_map h) ?_
  rintro - s1 ⟨h1, hl1⟩
  refine wp_mono (iput_map hsb h1) ?_
  rintro - s2 ⟨h2, hl2⟩
  exact ⟨h2, hl2.trans hl1⟩

/-- the inode of an entry that a directory has -/
theorem slot_ninodes (h : At sb R v s) (hd : isDir sb v d) {nm : Name} (hslot : slot sb v d t = some (n, nm)) : n < sb.ninodes := by
  have hdir := h.ok.disk.dirs d (h.image ▸ hd.1) (h.image ▸ hd.2)
  rw [h.image] at hdir
  rw [(slot_inum hslot).1]
  exact hdir t (slot_inside (by rw [hslot]; simp))

theorem dirlookup_map (h : MapAt sb R v s) (hl : s.locks dp = true) : wp anyhow (dirlookup sb dev dp name) (fun r s' =>
    MapAt sb (R + one (r.map Prod.fst)) v s' ∧ s'.locks = s.locks ∧ Same R s s' ∧ isDir sb v (s.inode dp).inum ∧
      (r.map fun p => ((s'.inode p.1).inum, p.2)) = (lookup sb v (s.inode dp).inum name).map fun p => (p.1, DESIZE * p.2)) s := by
  obtain ⟨-, hal⟩ := h.din hl
  refine wp_seq (lookupEntry_at h.toAt hl) ?_
  rintro r s1 ⟨rfl, ht, hrg⟩
  cases hlook : lookup sb v (s1.inode dp).inum name with
  | none =>
    rw [hlook] at hrg
    subst hrg
    exact ⟨h, rfl, same_refl, ⟨hal, ht⟩, rfl⟩
  | some p =>
    obtain ⟨n, t⟩ := p
    rw [hlook] at hrg
    subst hrg
    have hslot := lookup_some hlook
    refine wp_seq (iget_map h (slot_ninodes h.toAt ⟨hal, ht⟩ hslot) (slot_inum hslot).2) ?_
    rintro e s2 ⟨h2, hl2, hnum, hs2⟩
    exact ⟨h2, hl2, hs2, ⟨hal, ht⟩, by simp [hnum]⟩

/-- **A lookup leaves the directories maps**, also where it frees an inode. -/
theorem namexLoop_map (hsb : sb.Ok) {parent : Bool} {names : List Name} (h : MapAt sb (R + one (some ip)) v s) :
    wp anyhow (namexLoop sb dev parent ip names) (fun r s' => MapIn sb (R + one (r.map Prod.fst)) s') s := by
  induction names generalizing ip v s with
  | nil =>
    simp only [namexLoop, wp_ite, wp_bind, wp_pure]
    refine ⟨fun _ => ?_, fun _ => h.now⟩
    exact wp_mono (iput_map hsb h) fun _ _ h1 => h1.1
  | cons name names ih =>
    refine wp_seq (ilock_map h) ?_
    rintro - s1 ⟨h1, -, hl1, -⟩
    have hlock : s1.locks ip = true := by rw [hl1, update_self]
    simp only [wp_bind, wp_get, wp_ite, wp_pure]
    refine ⟨fun _ => ?_, fun _ => ⟨fun _ => ?_, fun _ => ?_⟩⟩
    · exact wp_mono (iunlockput_map hsb h1) fun _ _ h2 => h2.1
    · exact wp_mono (iunlock_map h1) fun _ _ h2 => h2.1.now
    · refine wp_mono (dirlookup_map h1 hlock) ?_
      rintro r s2 ⟨h2, -, -, -, -⟩
      cases r with
      | none => exact wp_seq (iunlockput_map hsb h2) fun _ _ h3 => h3.1
      | some p =>
        rw [map_some, add_right_comm] at h2
        exact wp_seq (iunlockput_map hsb h2) fun _ _ h3 => ih h3.1

theorem namex_map (hsb : sb.Ok) {parent : Bool} (h : MapAt sb R v s) (hc : 0 < R c) : wp anyhow (namex sb dev c path parent)
    (fun r s' => MapIn sb (R + one (r.map Prod.fst)) s') s := by
  refine wp_bind.2 ?_
  simp only [namexStart, wp_ite, wp_bind, wp_pure]
  refine ⟨fun _ => ?_, fun _ => ?_⟩
  · exact wp_mono (iget_map h hsb.root (by decide)) fun _ _ h1 => namexLoop_map hsb h1.1
  · refine wp_mono (idup_at h.toAt hc) ?_
    rintro - s1 ⟨h1, -, hs1⟩
    have hnum : (s1.inode c).inum ≠ 0 := by
      rw [(hs1 c).1]
      exact h.nums c hc
    exact namexLoop_map hsb (h.more h1 h.dirs hs1.same hnum)

theorem namei_map (hsb : sb.Ok) (h : MapAt sb R v s) (hc : 0 < R c) : wp anyhow (namei sb dev c path)
    (fun r s' => MapIn sb (R + one r) s') s := wp_seq (namex_map hsb h hc) fun _ _ h1 => h1

/-! ## Changes -/

/-- the link count of a locked inode goes up or down -/
theorem addLink_map (hsb : sb.Ok) (h : MapAt sb R v s) (hl : s.locks e = true) : wp anyhow (addLink sb e) (fun _ s' =>
    MapIn sb R s') s := by
  refine wp_mono (addLink_at hsb h.toAt hl) ?_
  rintro - s' ⟨h', -, hs⟩
  exact (h.keep h' (dirs_fields h.dirs (h.din hl).2 rfl rfl rfl) hs.same).now

theorem dropLink_map (hsb : sb.Ok) (h : MapAt sb R v s) (hl : s.locks e = true) : wp anyhow (dropLink sb e) (fun _ s' =>
    MapIn sb R s' ∧ s'.locks = s.locks) s := by
  refine wp_mono (dropLink_at hsb h.toAt hl) ?_
  rintro - s' ⟨h', hl', hs⟩
  exact ⟨(h.keep h' (dirs_fields h.dirs (h.din hl).2 rfl rfl rfl) hs.same).now, hl'⟩

/-- an entry for a name that the directory does not have -/
theorem dirs_put (h : Dirs sb v) (hd : isDir sb v d) (hnone : lookup sb v d name = none) (hempty : slot sb v d t = none)
    (hf : Filled sb v w d t (some (n, name.cut))) :
    Dirs sb w ∧ dirMap sb w d = update (dirMap sb v d) (key name) (some n) := by
  have hfree : dirMap sb v d (key name) = none := by rw [dirMap_key, hnone, map_none]
  rw [← key_bytes] at hf
  obtain ⟨hmap, hupdate⟩ := isMap_put (h d hd) hf hempty hfree
  exact ⟨dirs_apart h hf.apart fun _ => hmap, hupdate⟩

theorem dirlink_map (hsb : sb.Ok) (hword : sb.ninodes ≤ 2 ^ 16) (h : MapAt sb R v s) (hl : s.locks dp = true) (h0 : n ≠ 0)
    (hn : n < sb.ninodes) : wp anyhow (dirlink sb dev dp name n) (fun _ s' => MapIn sb R s') s := by
  cases hlook : lookup sb v (s.inode dp).inum name with
  | none =>
    have hdir : wp anyhow (dirlink sb dev dp name n) (fun _ _ => isDir sb v (s.inode dp).inum) s := by
      refine wp_seq (dirlookup_map h hl) ?_
      rintro r s1 ⟨-, -, -, hdir, -⟩
      exact wp_mono wp_any fun _ _ _ => hdir
    refine wp_mono (wp_and hdir (dirlink_new hsb h.toAt hl hlook h0 hn (by omega))) ?_
    rintro r s' ⟨hdir, -, w, t, h', -, hs, hempty, hf⟩
    exact (h.keep h' (dirs_put h.dirs hdir hlook hempty hf).1 hs.same).now
  | some p =>
    refine wp_seq (dirlookup_map h hl) ?_
    rintro r s1 ⟨h1, -, -, -, hr⟩
    rw [hlook] at hr
    cases r with
    | none => cases hr
    | some q => exact wp_seq (iput_map hsb h1) fun _ _ h2 => h2.1

/-! ## create -/

/-- create's entry in the parent -/
theorem createEntry_map (hsb : sb.Ok) (hword : sb.ninodes ≤ 2 ^ 16) (h : MapAt sb (R + one (some dp) + one (some ip)) v s)
    (hdp : s.locks dp = true) : wp anyhow (do
      if ¬ (← dirlink sb dev dp name ((← get).inode ip).inum) then throw (.panic "create: dirlink")
      iunlockput sb dp
      return ip) (fun r s' => MapIn sb (R + one (some r)) s') s := by
  obtain ⟨h0, hn⟩ : (s.inode ip).inum ≠ 0 ∧ (s.inode ip).inum < sb.ninodes := h.number (by simp)
  simp only [wp_bind, wp_get]
  refine wp_mono (dirlink_map hsb hword h hdp h0 hn) ?_
  intro r s1 h1
  simp only [wp_ite, wp_throw, wp_bind, wp_pure]
  refine ⟨fun _ => trivial, fun _ => ?_⟩
  rw [add_right_comm] at h1
  exact wp_mono (iunlockput_map hsb h1) fun _ _ h2 => h2.1

/-- **A new directory is a map when it gets its name.** -/
theorem createNew_map (hsb : sb.Ok) (hword : sb.ninodes ≤ 2 ^ 16) {type major minor : ℕ} (h : MapAt sb (R + one (some dp)) v s)
    (hdp : s.locks dp = true) (htype : type < 2 ^ 16) (hmajor : major < 2 ^ 16) (hminor : minor < 2 ^ 16) :
    wp anyhow (createNew sb dev dp name type major minor) (fun r s' => MapIn sb (R + one (some r)) s') s := by
  obtain ⟨-, hald⟩ := h.din hdp
  refine wp_seq (ialloc_at hsb h.toAt htype) ?_
  rintro ip s1 ⟨n, hn0, hn, hfree, hnum1, h1, hl1, hs1⟩
  obtain ⟨d, hd⟩ : ∃ d, d = (s.inode dp).inum := ⟨_, rfl⟩
  rw [← hd] at hald
  have hdn : d ≠ n := by
    intro heq
    rw [heq] at hald
    exact hald.2 hfree
  have hd0 : d ≠ 0 := hd ▸ h.nums dp (by simp)
  have hdp1 : (s1.inode dp).inum = d := (hs1 dp (by simp)).1.trans hd.symm
  refine wp_seq (ilock_at h1) ?_
  rintro - s2 ⟨h2, hfree2, hl2, hs2⟩
  have hne : dp ≠ ip := by
    intro heq
    rw [← heq, hl1, hdp] at hfree2
    cases hfree2
  have hdp2 : s2.locks dp = true := by rw [hl2, update_of_ne hne, hl1, hdp]
  have hip2 : s2.locks ip = true := by rw [hl2, update_self]
  refine wp_seq (updateFields_at hsb h2 hip2 hmajor hminor (by norm_num)) ?_
  obtain ⟨-, haln⟩ := h2.din hip2
  rw [(hs2 ip).1, hnum1] at haln ⊢
  rintro - s3 ⟨h3, hl3, hs3⟩
  set v1 := v.setInode n ⟨type, 0, 0, 0, 0, fun _ => 0⟩
  set di : Dinode := { v1.inode n with major := major, minor := minor, nlink := 1 } with hdi
  have hin1 : v1.inode n = ⟨type, 0, 0, 0, 0, fun _ => 0⟩ := setInode_self
  have hin3 : (v1.setInode n di).inode n = di := setInode_self
  have hsame3 : ∀ j, j ≠ n → SameDir sb v (v1.setInode n di) j := fun j hj =>
    sameDir_trans (sameDir_apart apart_setInode hj) (sameDir_apart apart_setInode hj)
  have hstill := still_trans hs2 hs3
  have hdp3 : (s3.inode dp).inum = d := (hstill dp).1.trans hdp1
  have hip3 : (s3.inode ip).inum = n := (hstill ip).1.trans hnum1
  have hlock3 : s3.locks dp = true := by rw [hl3]; exact hdp2
  -- the other directories are as they were, and the new inode is a map if it is a directory
  have hmade : ∀ {w s4}, At sb (R + one (some dp) + one (some ip)) w s4 → Still s3 s4 → (∀ j, j ≠ n → SameDir sb v w j) →
      (isDir sb w n → IsMap sb w n) → MapAt sb (R + one (some dp) + one (some ip)) w s4 := by
    intro w s4 h4 hs4 hsame hmap
    refine h.more h4 (fun j hj => ?_) (same_trans hs1 (still_trans hstill hs4).same) (by rw [(hs4 ip).1, hip3]; exact hn0)
    by_cases hjn : j = n
    · rw [hjn] at hj ⊢
      exact hmap hj
    · exact isMap_same (hsame j hjn) (h.dirs j ((hsame j hjn).isDir.1 hj))
  simp only [wp_ite]
  refine ⟨fun ht => ?_, fun ht => ?_⟩
  · refine wp_seq (createDots_at hsb hword h3 hlock3 (by rw [hl3]; exact hip2) hdp3 hip3 hdn hd0 hn0
      (by rw [hin3, hdi, hin1])) ?_
    rintro - s4 ⟨w, h4, hl4, hs4, hsame4, hnew⟩
    have hmap := hmade h4 hs4 (fun j hj => sameDir_trans (hsame3 j hj) (hsame4 j hj)) fun _ => isMap_new hnew
    exact createEntry_map hsb hword hmap (by rw [hl4]; exact hlock3)
  · have hmap := hmade h3 (fun _ => ⟨rfl, id⟩) hsame3 fun hdir => absurd hdir.2 (by rw [hin3, hdi, hin1]; exact ht)
    exact createEntry_map hsb hword hmap hlock3

theorem create_map (hsb : sb.Ok) (hword : sb.ninodes ≤ 2 ^ 16) {type major minor : ℕ} (h : MapAt sb R v s) (hc : 0 < R c)
    (htype : type < 2 ^ 16) (hmajor : major < 2 ^ 16) (hminor : minor < 2 ^ 16) :
    wp anyhow (create sb dev c path type major minor) (fun r s' => MapIn sb (R + one r) s') s := by
  refine wp_seq (namex_map hsb h hc) ?_
  intro r s1 h1
  cases r with
  | none => exact h1
  | some p =>
    obtain ⟨dp, name⟩ := p
    refine wp_seq (ilock_map h1) ?_
    rintro - s2 ⟨h2, -, hl2, -⟩
    have hdp2 : s2.locks dp = true := by rw [hl2, update_self]
    refine wp_seq (dirlookup_map h2 hdp2) ?_
    rintro r s3 ⟨h3, hl3, -, -, -⟩
    cases r with
    | none => exact wp_seq (createNew_map hsb hword h3 (by rw [hl3]; exact hdp2) htype hmajor hminor) fun _ _ h4 => h4
    | some q =>
      rw [map_some, add_right_comm] at h3
      refine wp_seq (iunlockput_map hsb h3) ?_
      rintro - s4 ⟨h4, -⟩
      refine wp_seq (ilock_map h4) ?_
      rintro - s5 ⟨h5, -, -, -⟩
      simp only [wp_bind, wp_get, wp_ite, wp_pure]
      exact ⟨fun _ => h5.now, fun _ => wp_mono (iunlockput_map hsb h5) fun _ _ h6 => h6.1⟩

/-! ## link and unlink -/

theorem linkBad_map (hsb : sb.Ok) (h : MapAt sb (R + one (some ip)) v s) : wp anyhow (linkBad sb ip) (fun _ s' =>
    MapIn sb R s') s := by
  refine wp_seq (ilock_map h) ?_
  rintro - s1 ⟨h1, -, hl1, -⟩
  refine wp_seq (dropLink_map hsb h1 (by rw [hl1, update_self])) ?_
  rintro - s2 ⟨h2, -⟩
  exact wp_seq (iunlockput_map hsb h2) fun _ _ h3 => h3.1

theorem link_map (hsb : sb.Ok) (hword : sb.ninodes ≤ 2 ^ 16) (h : MapAt sb R v s) (hc : 0 < R c) :
    wp anyhow (link sb dev c old new) (fun _ s' => MapIn sb R s') s := by
  refine wp_seq (namei_map hsb h hc) ?_
  intro r s1 h1
  cases r with
  | none => exact h1
  | some ip =>
    refine wp_seq (ilock_map h1) ?_
    rintro - s2 ⟨h2, -, hl2, -⟩
    simp only [wp_bind, wp_get, wp_ite, wp_pure]
    refine ⟨fun _ => wp_mono (iunlockput_map hsb h2) fun _ _ h3 => h3.1, fun _ => ?_⟩
    refine wp_mono (addLink_map hsb h2 (by rw [hl2, update_self])) ?_
    intro _ s3 h3
    refine wp_mono (iunlock_map h3) ?_
    rintro - s4 ⟨h4, -⟩
    refine wp_mono (namex_map hsb h4 (Nat.lt_add_right _ hc)) ?_
    intro r s5 h5
    cases r with
    | none => exact linkBad_map hsb h5
    | some p =>
      obtain ⟨dp, name⟩ := p
      refine wp_seq (ilock_map h5) ?_
      rintro - s6 ⟨h6, -, hl6, -⟩
      obtain ⟨h0, hn⟩ : (s6.inode ip).inum ≠ 0 ∧ (s6.inode ip).inum < sb.ninodes := h6.number (by simp)
      simp only [wp_bind, wp_get]
      refine wp_mono (dirlink_map hsb hword h6 (by rw [hl6, update_self]) h0 hn) ?_
      intro r s7 h7
      simp only [wp_ite, wp_bind, wp_pure]
      constructor
      · exact fun _ => wp_mono (iunlockput_map hsb h7) fun _ _ h8 => linkBad_map hsb h8.1
      · exact fun _ => wp_mono (iunlockput_map hsb h7) fun _ _ h8 => wp_mono (iput_map hsb h8.1) fun _ _ h9 => h9.1

/-- the entry that a lookup has found is cleared -/
theorem clear_map (hsb : sb.Ok) (h : MapAt sb R v s) (hl : s.locks dp = true) (hd : isDir sb v (s.inode dp).inum)
    (hlook : lookup sb v (s.inode dp).inum name = some (n, t)) (hdot : key name ≠ key dot) (hdotdot : key name ≠ key dotdot) :
    wp anyhow (onInode dp (writeDirent sb dev "unlink: writei" (DESIZE * t) emptyDirent)) (fun _ s' => MapIn sb R s' ∧
      s'.locks = s.locks) s := by
  have hslot := lookup_some hlook
  rw [← key_bytes] at hslot
  refine wp_mono (clear_at hsb h.toAt hl hd.2) ?_
  rintro - s' ⟨w, h', hl', hs, hf⟩
  have hmap := (isMap_clear (h.dirs _ hd) hf hslot hdot hdotdot).1
  exact ⟨(h.keep h' (dirs_apart h.dirs hf.apart fun _ => hmap) hs.same).now, hl'⟩

/-- unlink once both inodes are locked -/
theorem unlinkBoth_map {empty : Bool} {type : ℕ} (hsb : sb.Ok) (h : MapAt sb (R + one (some dp) + one (some ip)) v s)
    (hdp : s.locks dp = true) (hip : s.locks ip = true) (hne : dp ≠ ip) (hd : isDir sb v (s.inode dp).inum)
    (hlook : lookup sb v (s.inode dp).inum name = some (n, t)) (hdot : key name ≠ key dot) (hdotdot : key name ≠ key dotdot) :
    wp anyhow (do
      if ¬ empty then
        iunlockput sb ip
        iunlockput sb dp
        return false
      onInode dp (writeDirent sb dev "unlink: writei" (DESIZE * t) emptyDirent)
      if type = T_DIR then dropLink sb dp
      iunlockput sb dp
      dropLink sb ip
      iunlockput sb ip
      return true) (fun _ s' => MapIn sb R s') s := by
  simp only [wp_bind, wp_ite, wp_pure]
  refine ⟨fun _ => wp_mono (iunlockput_map hsb h) fun _ _ h1 => wp_mono (iunlockput_map hsb h1.1) fun _ _ h2 => h2.1, fun _ => ?_⟩
  have hend : ∀ {s2}, MapIn sb (R + one (some dp) + one (some ip)) s2 → s2.locks = s.locks →
      wp anyhow (iunlockput sb dp) (fun _ s3 => wp anyhow (dropLink sb ip) (fun _ s4 => wp anyhow (iunlockput sb ip)
        (fun _ s' => MapIn sb R s') s4) s3) s2 := by
    intro s2 h2 hl2
    rw [add_right_comm] at h2
    refine wp_mono (iunlockput_map hsb h2) ?_
    rintro - s3 ⟨h3, hl3⟩
    refine wp_mono (dropLink_map hsb h3 (by rw [hl3, update_of_ne hne.symm, hl2]; exact hip)) ?_
    rintro - s4 ⟨h4, -⟩
    exact wp_mono (iunlockput_map hsb h4) fun _ _ h5 => h5.1
  refine wp_mono (clear_map hsb h hdp hd hlook hdot hdotdot) ?_
  rintro - s1 ⟨h1, hl1⟩
  refine ⟨fun _ => ?_, fun _ => hend h1 hl1⟩
  refine wp_mono (dropLink_map hsb h1 (by rw [hl1]; exact hdp)) ?_
  rintro - s2 ⟨h2, hl2⟩
  exact hend h2 (hl2.trans hl1)

theorem unlink_map (hsb : sb.Ok) (h : MapAt sb (R + one (some dp)) v s) : wp anyhow (unlink sb dev dp name) (fun _ s' =>
    MapIn sb R s') s := by
  refine wp_seq (ilock_map h) ?_
  rintro - s1 ⟨h1, -, hl1, -⟩
  have hdp1 : s1.locks dp = true := by rw [hl1, update_self]
  simp only [wp_bind, wp_ite, wp_pure]
  refine ⟨fun _ => wp_mono (iunlockput_map hsb h1) fun _ _ h2 => h2.1, fun hdots => ?_⟩
  have hdot : key name ≠ key dot := fun heq => hdots (.inl (decide_eq_true (key_eq.1 heq)))
  have hdotdot : key name ≠ key dotdot := fun heq => hdots (.inr (decide_eq_true (key_eq.1 heq)))
  refine wp_mono (dirlookup_map h1 hdp1) ?_
  rintro r s2 ⟨h2, hl2, hs2, hdir, hr⟩
  have hdp2 : s2.locks dp = true := by rw [hl2]; exact hdp1
  cases r with
  | none => exact wp_seq (iunlockput_map hsb h2) fun _ _ h3 => h3.1
  | some p =>
    obtain ⟨ip, off⟩ := p
    obtain ⟨q, hq, hqe⟩ := map_eq_some_iff.1 hr.symm
    obtain rfl : off = DESIZE * q.2 := (Prod.mk.inj hqe).2.symm
    rw [← (hs2 dp (by simp)).1] at hq hdir
    refine wp_seq (ilock_map h2) ?_
    rintro - s3 ⟨h3, hfree3, hl3, hs3⟩
    have hne : dp ≠ ip := by
      intro heq
      rw [← heq, hdp2] at hfree3
      cases hfree3
    have hdp3 : s3.locks dp = true := by rw [hl3, update_of_ne hne]; exact hdp2
    have hip3 : s3.locks ip = true := by rw [hl3, update_self]
    rw [← (hs3 dp).1] at hq hdir
    refine wp_bind.2 (wp_get.2 ?_)
    refine wp_ite.2 ⟨fun _ => trivial, fun _ => ?_⟩
    refine wp_ite.2 ⟨fun ht => ?_, fun _ => wp_bind.2 (wp_pure.2 ?_)⟩
    · rw [(h3.din hip3).1] at ht
      refine wp_seq (isdirempty_at h3.toAt hip3 (by rw [ht]; decide)) ?_
      rintro empty s4 ⟨rfl, -⟩
      exact unlinkBoth_map hsb h3 hdp3 hip3 hne hdir hq hdot hdotdot
    · exact unlinkBoth_map hsb h3 hdp3 hip3 hne hdir hq hdot hdotdot

/-! ## Runs -/

inductive DirOp where
  | create (path : Path) (type major minor : UInt16)
  | link (old new : Path)
  | unlink (path : Path)

/-- a call of a process whose directory is c -/
def dirCall (sb : Super) (dev : Devsw) (c : Ino) : DirOp → FsM Unit
  | .create path type major minor => do
    match ← create sb dev c path type.toNat major.toNat minor.toNat with
    | some ip => iunlockput sb ip
    | none => return ()
  | .link old new => do _ ← link sb dev c old new
  | .unlink path => do
    match ← nameiparent sb dev c path with
    | some (dp, name) =>
      _ ← unlink sb dev dp name
      return ()
    | none => return ()

def dirStep (sb : Super) (dev : Devsw) (op : Ino × DirOp) : FsM Unit := do
  -- the process has a reference to its directory
  if ((← get).inode op.1).ref = 0 then throw .wait
  dirCall sb dev op.1 op.2

/-- the state after the calls, if each of them returns -/
def dirRun (sb : Super) (dev : Devsw) (s : Icache) (ops : List (Ino × DirOp)) : Except Stop Icache :=
  ops.foldlM (fun s op => (dirStep sb dev op s).map Prod.snd) s

/-- the state between calls -/
def Mapped (sb : Super) (s : Icache) : Prop := MapAt sb s.refs (imageOf sb s.disk) s

theorem MapAt.mapped (h : MapAt sb R v s) : Mapped sb s := by
  rw [Mapped, h.refs, h.image]
  exact h

/-- **A call leaves the directories maps.** -/
theorem dirCall_map (hsb : sb.Ok) (hword : sb.ninodes ≤ 2 ^ 16) (h : Mapped sb s) (hc : 0 < s.refs c) (op : DirOp) :
    wp anyhow (dirCall sb dev c op) (fun _ s' => Mapped sb s') s := by
  cases op with
  | create path type major minor =>
    refine wp_seq (create_map hsb hword h hc type.toNat_lt major.toNat_lt minor.toNat_lt) ?_
    intro r s1 h1
    cases r with
    | none => exact h1.mapped
    | some ip => exact wp_mono (iunlockput_map hsb h1) fun _ _ h2 => h2.1.mapped
  | link old new => exact wp_seq (link_map hsb hword h hc) fun _ _ h1 => h1.mapped
  | unlink path =>
    refine wp_seq (namex_map hsb h hc) ?_
    intro r s1 h1
    cases r with
    | none => exact h1.mapped
    | some p => exact wp_seq (unlink_map hsb h1) fun _ _ h2 => h2.mapped

theorem dirRun_map (hsb : sb.Ok) (hword : sb.ninodes ≤ 2 ^ 16) (ops : List (Ino × DirOp)) (h : Mapped sb s)
    (hrun : dirRun sb dev s ops = .ok s') : Mapped sb s' := by
  induction ops generalizing s with
  | nil =>
    cases hrun
    exact h
  | cons op ops ih =>
    rw [dirRun, foldlM_cons] at hrun
    cases hstep : dirStep sb dev op s with
    | error stop =>
      rw [hstep] at hrun
      cases hrun
    | ok p =>
      obtain ⟨u, s1⟩ := p
      rw [hstep] at hrun
      have hmap : wp anyhow (dirStep sb dev op) (fun _ s' => Mapped sb s') s := by
        simp only [dirStep, wp_bind, wp_get, wp_ite, wp_throw]
        exact ⟨fun _ => trivial, fun h0 => dirCall_map hsb hword h (Nat.pos_of_ne_zero h0) op.2⟩
      have h1 := wp_ok hmap hstep
      exact ih h1 hrun

/-! ## The operations come to their end -/

section Ends

variable {f : File} {de : Dirent} {bn k off : ℕ} {msg : String} {D : String → Prop} {E : Stop → Prop}

def outOfBlocks (msg : String) : Prop := msg = "balloc: out of blocks"

/-- bmap of a block that a file can have -/
theorem bmap_ends (hbn : bn < MAXFILE) : wp outOfBlocks (bmap sb bn) (fun _ _ => True) f := by
  have hballoc : ∀ (g : File) (Q : ℕ → File → Prop), (∀ b h, Q b h) → wp outOfBlocks (balloc sb) Q g := by
    intro g Q hQ
    simp only [balloc, bzero, wp_bind, wp_get]
    cases ballocScan sb g.disk with
    | none => exact rfl
    | some p => exact hQ _ _
  have hM : MAXFILE = NDIRECT + NINDIRECT := rfl
  simp only [bmap, slotBlock, setAddr, wp_dite, wp_ite, wp_bind, wp_get, wp_pure, wp_modify, wp_throw]
  refine ⟨fun _ => ⟨fun _ => hballoc _ _ fun _ _ => trivial, fun _ => trivial⟩,
    fun hd => ⟨fun _ => ?_, fun hn => absurd hn (by omega)⟩⟩
  refine ⟨fun _ => hballoc _ _ fun _ _ => ⟨fun _ => hballoc _ _ fun _ _ => trivial, fun _ => trivial⟩, fun _ => ?_⟩
  exact ⟨fun _ => hballoc _ _ fun _ _ => trivial, fun _ => trivial⟩

theorem writeLoop_nil : wp D (writeLoop sb k off []) (fun _ g => g = f) f := by
  cases k <;> exact rfl

/-- an entry is in one block -/
theorem writeDirent_ends (hmap : wp D (bmap sb (off / BSIZE)) (fun _ _ => True) f) (ht : f.ip.type ≠ T_DEV) (hoff : off % DESIZE = 0)
    (hle : off ≤ f.ip.size) (hmax : off + DESIZE ≤ MAXFILE * BSIZE) (hlen : de.bytes.length = DESIZE) :
    wp D (writeDirent sb dev msg off de) (fun _ _ => True) f := by
  have hMB : MAXFILE * BSIZE = 71680 := rfl
  have hB := BSIZE_eq
  have hD := DESIZE_eq
  have hsum : uint32 (off + de.bytes.length) = off + DESIZE := by rw [hlen]; exact uint32_eq (by omega)
  have hchunk : chunk off de.bytes.length = de.bytes.length := by
    rw [hlen, chunk, hB, hD]
    rw [hD] at hoff
    omega
  have hwrite : wp D (writei sb dev de.bytes off) (fun r _ => r = some DESIZE) f := by
    simp only [writei, wp_bind, wp_get, wp_ite, wp_pure, iupdate, wp_modify, hsum]
    refine ⟨fun h => absurd h ht, fun _ => ⟨fun h => absurd h (by omega), fun _ => ⟨fun h => absurd h (by omega), fun _ => ?_⟩⟩⟩
    obtain ⟨k, hk⟩ : ∃ k, de.bytes.length = k + 1 := ⟨15, hlen⟩
    have hne : de.bytes ≠ [] := ne_nil_of_length_pos (by omega)
    rw [hk]
    simp only [writeLoop, if_neg hne, wp_bind, wp_modify]
    refine wp_mono hmap fun b g _ => ?_
    rw [hchunk, drop_length]
    refine wp_mono writeLoop_nil fun _ _ _ => ?_
    rw [← hk, hlen]
    exact ⟨fun _ => rfl, fun _ => rfl⟩
  refine wp_seq hwrite ?_
  rintro r g rfl
  simp only [wp_ite, wp_throw, wp_pure, ne_eq, not_true_eq_false, false_implies, implies_true, and_self]

theorem emptyEntry_ends (hf : FileOk sb f) (hfull : Full sb (f.image sb) f.inum) (ht : f.ip.type ≠ T_DEV)
    (hsize : f.ip.size % DESIZE = 0) (hle : DESIZE * t ≤ f.ip.size) :
    wp D (emptyEntry sb dev k (DESIZE * t)) (fun o g => g = f ∧ o % DESIZE = 0 ∧ o ≤ f.ip.size) f := by
  have hD := DESIZE_eq
  induction k generalizing t with
  | zero => exact ⟨rfl, Nat.mul_mod_right .., hle⟩
  | succ k ih =>
    simp only [emptyEntry, wp_bind, wp_get, wp_ite, wp_pure]
    refine ⟨fun _ => ⟨trivial, Nat.mul_mod_right .., hle⟩, fun hend => ?_⟩
    have hin : DESIZE * t + DESIZE ≤ f.ip.size := by
      rw [hD] at hsize hend ⊢
      omega
    refine wp_mono (readDirent_ends hf hfull ht hin) ?_
    rintro de g rfl
    exact ⟨fun _ => ⟨rfl, Nat.mul_mod_right .., hle⟩, fun _ => ih (t := t + 1) hin⟩

theorem addEntry_ends (hf : FileOk sb f) (hfull : Full sb (f.image sb) f.inum) (ht : f.ip.type ≠ T_DEV)
    (hsize : f.ip.size % DESIZE = 0) (hmax : f.ip.size + DESIZE ≤ MAXFILE * BSIZE) :
    wp outOfBlocks (addEntry sb dev name n) (fun _ _ => True) f := by
  have hMB : MAXFILE * BSIZE = 71680 := rfl
  have hM := MAXFILE_eq
  have hB := BSIZE_eq
  have hD := DESIZE_eq
  simp only [addEntry, wp_bind, wp_get]
  refine wp_mono (emptyEntry_ends (t := 0) hf hfull ht hsize (Nat.zero_le _)) ?_
  rintro o g ⟨rfl, ho, hle⟩
  refine writeDirent_ends (bmap_ends ?_) ht ho hle (by omega) (dirent_length name n)
  rw [hB, hM]
  omega

theorem isdirempty_ends (hf : FileOk sb f) (hfull : Full sb (f.image sb) f.inum) (ht : f.ip.type ≠ T_DEV)
    (hsize : f.ip.size % DESIZE = 0) : wp D (isdirempty sb dev) (fun _ _ => True) f := by
  have hD := DESIZE_eq
  have hloop : ∀ k t, wp D (emptyFrom sb dev k (DESIZE * t)) (fun _ _ => True) f := by
    intro k
    induction k with
    | zero => exact fun _ => trivial
    | succ k ih =>
      intro t
      simp only [emptyFrom, wp_bind, wp_get, wp_ite, wp_pure, implies_true, true_and]
      intro hend
      refine wp_mono (readDirent_ends hf hfull ht ?_) ?_
      · rw [hD] at hsize hend ⊢
        omega
      · rintro de g rfl _
        exact ih (t + 1)
  simp only [isdirempty, wp_bind, wp_get]
  exact hloop _ 2

/-- the reference that iget has just given is not the last one, or the inode has not been read yet -/
theorem iget_fresh : wp anyhow (iget n) (fun e s' => (s'.inode e).valid = true → (s'.inode e).ref ≠ 1) s := by
  refine wp_iget (fun e h0 _ => ?_) (fun _ e _ => ?_) fun _ => trivial
  · simp only [setInode_same]
    intro _
    omega
  · simp only [setInode_same]
    intro hv
    cases hv

end Ends

/-! ## The operations of the map -/

/-- there is no entry of the inode cache left -/
def noEntry (stop : Stop) : Prop := stop = .panic "iget: no inodes"

/-- dirlink also needs a block for a longer directory, and it waits for a lock of its own when it lets go of the directory itself -/
def linkStop (stop : Stop) : Prop := stop = .wait ∨ noEntry stop ∨ stop = .panic "balloc: out of blocks"

/-- the directory of entry dp, which is locked, is a map with its operations -/
structure MapOps (sb : Super) (dev : Devsw) (s : Icache) (dp : Ino) : Prop where
  dirlookup : ∀ name, wp noEntry (dirlookup sb dev dp name) (fun r s' => imageOf sb s'.disk = imageOf sb s.disk ∧
    (r.map fun p => (s'.inode p.1).inum) = dirMap sb (imageOf sb s.disk) (s.inode dp).inum (key name)) s
  dirlink : ∀ name n, n ≠ 0 → n < sb.ninodes → (s.inode dp).din.size + DESIZE ≤ MAXFILE * BSIZE →
    wp linkStop (dirlink sb dev dp name n) (fun r s' =>
      (r = false ↔ dirMap sb (imageOf sb s.disk) (s.inode dp).inum (key name) ≠ none) ∧
      (r = false → imageOf sb s'.disk = imageOf sb s.disk) ∧
      (r = true → dirMap sb (imageOf sb s'.disk) (s.inode dp).inum =
        update (dirMap sb (imageOf sb s.disk) (s.inode dp).inum) (key name) (some n)) ∧
      ∀ j, j ≠ (s.inode dp).inum → dirMap sb (imageOf sb s'.disk) j = dirMap sb (imageOf sb s.disk) j) s
  clear : ∀ name n off, key name ≠ key dot → key name ≠ key dotdot →
    lookupEntry sb dev name (s.file dp) = .ok (some (n, off), s.file dp) →
    wp (fun _ => False) (onInode dp (writeDirent sb dev "unlink: writei" off emptyDirent)) (fun _ s' =>
      dirMap sb (imageOf sb s'.disk) (s.inode dp).inum =
        update (dirMap sb (imageOf sb s.disk) (s.inode dp).inum) (key name) none ∧
      ∀ j, j ≠ (s.inode dp).inum → dirMap sb (imageOf sb s'.disk) j = dirMap sb (imageOf sb s.disk) j) s
  isdirempty : wp (fun _ => False) (onInode dp (isdirempty sb dev)) (fun r s' => s' = s ∧
    (r = true ↔ ∀ k, dirMap sb (imageOf sb s.disk) (s.inode dp).inum k ≠ none → k = key dot ∨ k = key dotdot)) s

section Ops

variable (hsb : sb.Ok) (hword : sb.ninodes ≤ 2 ^ 16) (h : At sb R v s) (hl : s.locks dp = true) (hd : isDir sb v (s.inode dp).inum)
  (hm : IsMap sb v (s.inode dp).inum)
include h hl hd

/-- dirlookup of a locked directory, whether or not the inodes have links -/
theorem dirlookup_finds (hw : (v.inode (s.inode dp).inum).size % DESIZE = 0) : wp noEntry (dirlookup sb dev dp name) (fun r s' =>
    At sb (R + one (r.map Prod.fst)) v s' ∧ s'.locks = s.locks ∧
      (∀ p, r = some p → (s'.inode p.1).valid = true → (s'.inode p.1).ref ≠ 1) ∧
      (r.map fun p => (s'.inode p.1).inum) = dirMap sb v (s.inode dp).inum (key name)) s := by
  refine wp_seq (wp_and (lookupEntry_ends h hl hd.2 hw) (lookupEntry_at h hl)) ?_
  rintro r s1 ⟨-, rfl, -, hr⟩
  rw [dirMap_key]
  cases hlook : lookup sb v (s1.inode dp).inum name with
  | none =>
    rw [hlook] at hr
    subst hr
    exact ⟨h, rfl, (by intros; contradiction), rfl⟩
  | some p =>
    obtain ⟨n, t⟩ := p
    rw [hlook] at hr
    subst hr
    have hn := slot_ninodes h hd (lookup_some hlook)
    have hspec := wp_and (wp_allow (iget_ok h.ok hn) fine_anyhow) (iget_refs h.refs)
    refine wp_seq (wp_and (iget_ends fun _ => rfl) (wp_and (wp_and hspec iget_same) iget_fresh)) ?_
    rintro e s2 ⟨-, ⟨⟨⟨hok, hl2⟩, href⟩, hdisk, hnum, -⟩, hfresh⟩
    refine ⟨⟨hok, hdisk ▸ h.image, href⟩, hl2, ?_, by simp [hnum]⟩
    intro p hp
    cases hp
    exact hfresh

include hm in
theorem isdirempty_iff : wp (fun _ => False) (onInode dp (isdirempty sb dev)) (fun r s' => s' = s ∧
    (r = true ↔ ∀ k, dirMap sb v (s.inode dp).inum k ≠ none → k = key dot ∨ k = key dotdot)) s := by
  have hdin := (h.din hl).1
  have hsound := (h.sound hl).1
  have hdev : (s.file dp).ip.type ≠ T_DEV := by
    show (s.inode dp).din.type ≠ T_DEV
    rw [hdin, hd.2]
    decide
  have hsize : (s.file dp).ip.size % DESIZE = 0 := by
    show (s.inode dp).din.size % DESIZE = 0
    rw [hdin]
    exact hm.whole
  have hends : wp (fun _ => False) (onInode dp (isdirempty sb dev)) (fun _ _ => True) s :=
    wp_onInode (fun _ => id) (isdirempty_ends hsound.ok hsound.full hdev hsize)
  refine wp_mono (wp_and hends (isdirempty_at h hl (by rw [← hdin]; exact hdev))) ?_
  rintro r s' ⟨-, rfl, hr⟩
  refine ⟨rfl, hr.trans ?_⟩
  constructor
  · intro hall k hk
    obtain ⟨n, hn⟩ := ne_none_iff_exists'.1 hk
    obtain ⟨t, ht⟩ := (dirMap_some hm).1 hn
    have hlt : t < 2 := by
      by_contra hge
      rw [hall t (by omega)] at ht
      cases ht
    interval_cases t
    · obtain ⟨m, hm0⟩ := hm.first
      rw [hm0] at ht
      exact .inl (Key.ext (Prod.mk.inj (some.inj ht)).2.symm)
    · obtain ⟨m, hm1⟩ := hm.second
      rw [hm1] at ht
      exact .inr (Key.ext (Prod.mk.inj (some.inj ht)).2.symm)
  · intro hall t ht
    by_contra hne
    obtain ⟨⟨n, nm⟩, hslot⟩ := ne_none_iff_exists'.1 hne
    have hkey := slot_key hslot
    have hbound : dirMap sb v (s'.inode dp).inum (key nm) = some n := (dirMap_some hm).2 ⟨t, by rw [hkey]; exact hslot⟩
    rcases hall (key nm) (by rw [hbound]; simp) with hdot | hdotdot
    · obtain ⟨m, hm0⟩ := hm.first
      have hnm : nm = dot := by rw [← hkey, hdot]; rfl
      rw [hnm] at hslot
      have ht0 := hm.keys hslot hm0
      omega
    · obtain ⟨m, hm1⟩ := hm.second
      have hnm : nm = dotdot := by rw [← hkey, hdotdot]; rfl
      rw [hnm] at hslot
      have ht1 := hm.keys hslot hm1
      omega

include hsb in
theorem clear_unbinds (hm : Dirs sb v) {off : ℕ} (hdot : key name ≠ key dot) (hdotdot : key name ≠ key dotdot)
    (hfound : lookupEntry sb dev name (s.file dp) = .ok (some (n, off), s.file dp)) :
    wp (fun _ => False) (onInode dp (writeDirent sb dev "unlink: writei" off emptyDirent)) (fun _ s' =>
      dirMap sb (imageOf sb s'.disk) (s.inode dp).inum = update (dirMap sb v (s.inode dp).inum) (key name) none ∧
      ∀ j, j ≠ (s.inode dp).inum → dirMap sb (imageOf sb s'.disk) j = dirMap sb v j) s := by
  have hMB : MAXFILE * BSIZE = 71680 := rfl
  have hD := DESIZE_eq
  have hB := BSIZE_eq
  obtain ⟨hsound, himg⟩ := h.sound hl
  have hdin := (h.din hl).1
  have hdev : (s.file dp).ip.type ≠ T_DEV := by
    show (s.inode dp).din.type ≠ T_DEV
    rw [hdin, hd.2]
    decide
  -- the entry is the one that lookup finds
  have hspec : wp (fun _ => True) (lookupEntry sb dev name) (fun r g => g = s.file dp ∧ (s.file dp).ip.type = T_DIR ∧
      r = (lookup sb ((s.file dp).image sb) (s.file dp).inum name).map fun p => (p.1, DESIZE * p.2)) (s.file dp) :=
    lookupEntry_finds hsound.ok hsound.full trivial trivial
  have hres := (wp_ok hspec hfound).2.2
  rw [himg] at hres
  obtain ⟨q, hq, hqe⟩ := map_eq_some_iff.1 hres.symm
  obtain rfl : off = DESIZE * q.2 := (Prod.mk.inj hqe).2.symm
  have hslot : slot sb v (s.inode dp).inum q.2 = some (q.1, name.cut) := lookup_some hq
  have hin := slot_inside (by rw [hslot]; simp)
  rw [← hdin] at hin
  have hin' : DESIZE * q.2 + DESIZE ≤ (s.file dp).ip.size := hin
  have hle := full_size hsound.full
  obtain ⟨x, hx⟩ := ne_none_iff_exists'.1 (hsound.full (DESIZE * q.2 / BSIZE) (by rw [image_inode]; rw [hD, hB] at *; omega))
  have hends : wp (fun _ => False) (onInode dp (writeDirent sb dev "unlink: writei" (DESIZE * q.2) emptyDirent))
      (fun _ _ => True) s := by
    refine wp_onInode (D := fun _ => False) (fun _ => id) ?_
    exact writeDirent_ends (wp_mono (bmap_mapped hsound.ok hx) fun _ _ _ => trivial) hdev (Nat.mul_mod_right ..)
      (by omega) (by omega) rfl
  refine wp_mono (wp_and hends (clear_at hsb h hl hd.2)) ?_
  rintro - s' ⟨-, w, h', -, -, hf⟩
  rw [← key_bytes] at hslot
  rw [h'.image]
  exact ⟨(isMap_clear (hm _ hd) hf hslot hdot hdotdot).2, fun j hj => dirMap_same (sameDir_apart hf.apart hj)⟩

include hsb hword in
theorem dirlink_binds (hm : Dirs sb v) (h0 : n ≠ 0) (hn : n < sb.ninodes) (hmax : (s.inode dp).din.size + DESIZE ≤ MAXFILE * BSIZE) :
    wp linkStop (dirlink sb dev dp name n) (fun r s' => (r = false ↔ dirMap sb v (s.inode dp).inum (key name) ≠ none) ∧
      (r = false → imageOf sb s'.disk = v) ∧
      (r = true → dirMap sb (imageOf sb s'.disk) (s.inode dp).inum =
        update (dirMap sb v (s.inode dp).inum) (key name) (some n)) ∧
      ∀ j, j ≠ (s.inode dp).inum → dirMap sb (imageOf sb s'.disk) j = dirMap sb v j) s := by
  have hdin := (h.din hl).1
  have hwhole := (hm _ hd).whole
  have hfinds : wp linkStop (dirlookup sb dev dp name) (fun r s' => At sb (R + one (r.map Prod.fst)) v s' ∧ s'.locks = s.locks ∧
      (∀ p, r = some p → (s'.inode p.1).valid = true → (s'.inode p.1).ref ≠ 1) ∧
      (r.map fun p => (s'.inode p.1).inum) = dirMap sb v (s.inode dp).inum (key name)) s :=
    wp_allow (dirlookup_finds h hl hd hwhole) fun _ hs => .inr (.inl hs)
  cases hlook : lookup sb v (s.inode dp).inum name with
  | some p =>
    have hbound : dirMap sb v (s.inode dp).inum (key name) = some p.1 := by rw [dirMap_key, hlook, map_some]
    refine wp_seq hfinds ?_
    rintro r s1 ⟨h1, hl1, hfresh, hr⟩
    rw [hbound] at hr
    cases r with
    | none => cases hr
    | some q =>
      -- the reference that dirlookup has given goes away again
      have hput : wp linkStop (iput sb q.1) (fun _ s' => s'.disk = s1.disk) s1 := by
        simp only [iput, iputFree, iputDrop, wp_bind, wp_get, wp_ite, wp_throw, wp_pure, wp_modifyInode]
        exact ⟨fun _ => .inl rfl, fun _ => ⟨fun hc => absurd hc.2.2 (hfresh q rfl hc.1), fun _ => rfl⟩⟩
      refine wp_seq hput ?_
      intro _ s2 hdisk
      have himg : imageOf sb s2.disk = v := by rw [hdisk, h1.image]
      refine ⟨⟨fun _ => by rw [hbound]; simp, fun _ => rfl⟩, fun _ => himg, (by intros; contradiction), fun j _ => ?_⟩
      rw [himg]
  | none =>
    have hfree : dirMap sb v (s.inode dp).inum (key name) = none := by rw [dirMap_key, hlook, map_none]
    have hends : wp linkStop (dirlink sb dev dp name n) (fun _ _ => True) s := by
      refine wp_seq (wp_and hfinds (wp_seq (lookupEntry_at h hl) (S := fun r s' => r = none ∧ s' = s) ?_)) ?_
      · rintro r s1 ⟨rfl, -, hr⟩
        rw [hlook] at hr
        subst hr
        exact ⟨rfl, rfl⟩
      · rintro r s1 ⟨-, rfl, rfl⟩
        have hsound := (h.sound hl).1
        have hdev : (s1.file dp).ip.type ≠ T_DEV := by
          show (s1.inode dp).din.type ≠ T_DEV
          rw [hdin, hd.2]
          decide
        rw [← hdin] at hwhole
        refine wp_seq (wp_onInode (Q := fun _ _ => True) (fun msg hmsg => ?_)
          (addEntry_ends hsound.ok hsound.full hdev hwhole hmax)) fun _ _ _ => trivial
        rw [outOfBlocks] at hmsg
        exact .inr (.inr (by rw [hmsg]))
    refine wp_mono (wp_and hends (dirlink_new hsb h hl hlook h0 hn (by omega))) ?_
    rintro r s' ⟨-, rfl, w, t, h', -, -, hempty, hf⟩
    rw [h'.image]
    refine ⟨⟨(by intros; contradiction), fun hne => absurd hfree hne⟩, (by intros; contradiction), fun _ => ?_, fun j hj => ?_⟩
    · exact (dirs_put hm hd hlook hempty hf).2
    · exact dirMap_same (sameDir_apart hf.apart hj)

end Ops

/-- **Every directory is a finite map, with dirlookup, dirlink, the clearing of an entry and isdirempty as its operations.** -/
theorem directory_is_map (sb : Super) (dev : Devsw) (s s' : Icache) (ops : List (Ino × DirOp)) (hsb : sb.Ok)
    (hword : sb.ninodes ≤ 2 ^ 16) (hs : Mapped sb s) (hrun : dirRun sb dev s ops = .ok s') :
    (∀ d, isDir sb (imageOf sb s'.disk) d → IsMap sb (imageOf sb s'.disk) d ∧
      {k | dirMap sb (imageOf sb s'.disk) d k ≠ none}.Finite) ∧
    ∀ (u : Icache) (dp : Ino), u.Ok sb → imageOf sb u.disk = imageOf sb s'.disk → u.locks dp = true →
      isDir sb (imageOf sb u.disk) (u.inode dp).inum → MapOps sb dev u dp := by
  have hmap := dirRun_map hsb hword ops hs hrun
  refine ⟨fun d hd => ⟨hmap.dirs d hd, dirMap_finite⟩, fun u dp hu himg hl hd => ?_⟩
  have hdirs : Dirs sb (imageOf sb u.disk) := by
    rw [himg]
    exact hmap.dirs
  have h := at_start hu
  refine ⟨fun name => ?_, fun name n h0 hn hmax => dirlink_binds hsb hword h hl hd hdirs h0 hn hmax,
    fun name n off hdot hdotdot hfound => clear_unbinds hsb h hl hd hdirs hdot hdotdot hfound, isdirempty_iff h hl hd (hdirs _ hd)⟩
  refine wp_mono (dirlookup_finds h hl hd (hdirs _ hd).whole) ?_
  rintro r t ⟨ht, -, -, hr⟩
  exact ⟨ht.image, hr⟩

theorem rootDisk_mapped : Mapped smallSuper (Sysfile.Sys.boot Sysfile.rootDisk 4).fs := by
  refine ⟨at_start Sysfile.rootDisk_wf.fs, fun d hd => ?_, fun e he => ?_⟩
  · obtain rfl := Sysfile.rootDisk_allocated.1 (raw_allocated.2 hd.1)
    have h0 : slot smallSuper (imageOf smallSuper Sysfile.rootDisk) 1 0 = some (1, dot) := by decide +kernel
    have h1 : slot smallSuper (imageOf smallSuper Sysfile.rootDisk) 1 1 = some (1, dotdot) := by decide +kernel
    have hlt : ∀ {t n nm}, slot smallSuper (imageOf smallSuper Sysfile.rootDisk) 1 t = some (n, nm) → t < 2 := by
      intro t n nm ht
      have hin := slot_inside (by rw [ht]; simp)
      have hD := DESIZE_eq
      rw [Sysfile.rootDisk_size, hD] at hin
      omega
    refine ⟨fun {t t' n n' nm} ht ht' => ?_, ⟨1, h0⟩, ⟨1, h1⟩, (congrArg (· % DESIZE) Sysfile.rootDisk_size).trans rfl⟩
    have hne : dot ≠ dotdot := by decide
    have ht2 := hlt ht
    have ht2' := hlt ht'
    interval_cases t <;> interval_cases t'
    · rfl
    · cases h0.symm.trans ht
      exact absurd (Prod.mk.inj (some.inj (h1.symm.trans ht'))).2.symm hne
    · cases h1.symm.trans ht
      exact absurd (Prod.mk.inj (some.inj (h0.symm.trans ht'))).2 hne
    · rfl
  · have h0 : e = 0 := by
      by_contra hne
      have hzero : (Sysfile.Sys.boot Sysfile.rootDisk 4).fs.refs e = 0 := congrArg Inode.ref (setInode_other' hne)
      omega
    rw [h0]
    decide

/-- mkdir("d"), a file "f", link("f", "d/f"), unlink("f") -/
def sampleDirOps : List (Ino × DirOp) :=
  [(0, .create Sysfile.pathD 1 0 0), (0, .create Sysfile.pathF 2 0 0), (0, .link Sysfile.pathF Sysfile.pathDF),
    (0, .unlink Sysfile.pathF)]

theorem directory_is_map_sample : ∃ s', dirRun smallSuper noDevices (Sysfile.Sys.boot Sysfile.rootDisk 4).fs sampleDirOps = .ok s' ∧
    ∀ d, isDir smallSuper (imageOf smallSuper s'.disk) d → IsMap smallSuper (imageOf smallSuper s'.disk) d := by
  have hend : (dirRun smallSuper noDevices (Sysfile.Sys.boot Sysfile.rootDisk 4).fs sampleDirOps).isOk = true := by decide +kernel
  cases hrun : dirRun smallSuper noDevices (Sysfile.Sys.boot Sysfile.rootDisk 4).fs sampleDirOps with
  | error stop =>
    rw [hrun] at hend
    cases hend
  | ok s' =>
    have hmap := directory_is_map smallSuper noDevices _ s' sampleDirOps smallSuper_ok (by decide) rootDisk_mapped hrun
    exact ⟨s', rfl, fun d hd => (hmap.1 d hd).1⟩

end Xv6.Fs
