/-
What create, link and unlink leave behind.

The link counts are shorts that can wrap around; where that would free an inode that is in use, nothing is said.

Results:
- `createDots_at`: a new directory has its two entries;
- `create_at`: **create returns an inode that was there or a new one, or it changes nothing**;
- `link_at`, `unlink_at`: **a link or an unlink that returns -1 has changed nothing**.
-/
import Xv6.Fs.Edits

namespace Xv6.Fs

open Fallible Holders Function Option

attribute [local semireducible] wp

variable {sb : Super} {dev : Devsw} {s s' : Icache} {v w : Image} {R : Ino → ℕ} {e ip dp c : Ino} {name : Name} {d n : ℕ}
  {type major minor : ℕ} {path old new : Path}

/-! ## Lookups in a changed image -/

/-- directory d has the entries that it had -/
structure SameDir (sb : Super) (v w : Image) (d : ℕ) : Prop where
  type : (w.inode d).type = (v.inode d).type
  size : (w.inode d).size = (v.inode d).size
  slots : ∀ t, slot sb w d t = slot sb v d t

theorem sameDir_trans {u : Image} (h : SameDir sb u v d) (h' : SameDir sb v w d) : SameDir sb u w d :=
  ⟨h'.type.trans h.type, h'.size.trans h.size, fun t => (h'.slots t).trans (h.slots t)⟩

theorem sameDir_apart (h : Apart sb n v w) (hd : d ≠ n) : SameDir sb v w d :=
  ⟨by rw [h.inode d hd], by rw [h.inode d hd], fun _ => apart_slot h hd⟩

theorem sameDir_fields {di : Dinode} (hal : allocated sb v n) (ht : di.type = (v.inode n).type) (hs : di.size = (v.inode n).size)
    (ha : di.addrs = (v.inode n).addrs) : SameDir sb v (v.setInode n di) d := by
  by_cases hd : d = n
  · subst hd
    exact ⟨by rw [setInode_self, ht], by rw [setInode_self, hs], fun _ => slot_fields hal ht hs ha⟩
  · exact sameDir_apart apart_setInode hd

theorem SameDir.lookup (h : SameDir sb v w d) (name : Name) : Fs.lookup sb w d name = Fs.lookup sb v d name :=
  lookup_congr h.size h.slots name

theorem lookup_empty (h : (v.inode d).size = 0) : lookup sb v d name = none := by
  rw [lookup, h]
  rfl

/-! ## Paths -/

/-- the name that goes with an inode is empty -/
theorem walk_snd {names : List Name} {p : ℕ × Name} (h : walk sb v false n names = some p) : p.2 = [] := by
  induction names generalizing n with
  | nil =>
    cases h
    rfl
  | cons nm names ih =>
    rw [walk] at h
    split_ifs at h with hdir hend
    · cases hend.1
    · obtain ⟨q, -, hq⟩ := bind_eq_some_iff.1 h
      exact ih hq

theorem namei_at (hsb : sb.Ok) (hr : Rooted sb R v s) (h : At sb R v s) (hc : 0 < R c) : wp anyhow (namei sb dev c path)
    (fun r s' => At sb (R + one r) v s' ∧ s'.locks = s.locks ∧ Same R s s' ∧
      (∀ e, r = some e → R e = 0 → Linked sb v (s'.inode e).inum) ∧
      (r.map fun e => ((s'.inode e).inum, [])) = walk sb v false (startAt (s.inode c).inum path) (elems path)) s := by
  refine wp_seq (namex_at hsb hr h hc) ?_
  rintro r s1 ⟨h1, hl1, hs1, hsafe1, hwalk⟩
  refine ⟨h1, hl1, hs1, fun e he => ?_, ?_⟩
  · obtain ⟨p, rfl, rfl⟩ := map_eq_some_iff.1 he
    exact hsafe1 p rfl
  · rw [← hwalk]
    cases r with
    | none => rfl
    | some p =>
      have hp := walk_snd (p := ((s1.inode p.1).inum, p.2)) hwalk.symm
      simp only at hp
      simp [hp]

/-! ## create -/

/-- a directory that has only its first two entries -/
structure NewDir (sb : Super) (w : Image) (d n : ℕ) : Prop where
  size : (w.inode n).size = 2 * DESIZE
  slots : ∀ t, slot sb w n t = if t = 0 then some (n, dot) else if t = 1 then some (d, dotdot) else none

/-- the two entries of a new directory -/
theorem createDots_at (hsb : sb.Ok) (hword : sb.ninodes ≤ 2 ^ 16) (h : At sb R v s) (hdp : s.locks dp = true)
    (hip : s.locks ip = true) (hd : (s.inode dp).inum = d) (hn : (s.inode ip).inum = n) (hdn : d ≠ n) (hd0 : d ≠ 0) (hn0 : n ≠ 0)
    (hsize : (v.inode n).size = 0) : wp anyhow (createDots sb dev dp ip) (fun _ s' =>
      ∃ w, At sb R w s' ∧ s'.locks = s.locks ∧ Still s s' ∧ (∀ j, j ≠ n → SameDir sb v w j) ∧ NewDir sb w d n) s := by
  have hDE := DESIZE_eq
  obtain ⟨-, hald⟩ := h.din hdp
  obtain ⟨-, haln⟩ := h.din hip
  refine wp_seq (addLink_at hsb h hdp) ?_
  rw [hd] at hald ⊢
  rw [hn] at haln
  rintro - s1 ⟨h1, hl1, hs1⟩
  set v1 := v.setInode d { v.inode d with nlink := ((v.inode d).nlink + 1) % 2 ^ 16 }
  have hn1 : v1.inode n = v.inode n := setInode_ne (Ne.symm hdn)
  have hsame1 : ∀ j, SameDir sb v v1 j := fun j => sameDir_fields hald rfl rfl rfl
  have hnum1 : (s1.inode ip).inum = n := (hs1 ip).1.trans hn
  have hnumd : (s1.inode dp).inum = d := (hs1 dp).1.trans hd
  simp only [wp_bind, wp_get, hnum1, hnumd]
  -- "." goes to slot 0
  have hnone1 : lookup sb v1 (s1.inode ip).inum dot = none := lookup_empty (by rw [hnum1, hn1]; exact hsize)
  refine wp_mono (dirlink_new hsb h1 (by rw [hl1]; exact hip) hnone1 hn0 haln.1 (by have := haln.1; omega)) ?_
  rw [hnum1]
  rintro _ s2 ⟨rfl, v2, t0, h2, hl2, hs2, -, hfill2⟩
  have ht0 : t0 = 0 := by
    have := hfill2.inside
    rw [hn1, hsize, hDE] at this
    omega
  subst ht0
  have hslot2 : ∀ t, slot sb v2 n t = if t = 0 then some (n, dot.cut) else none := by
    intro t
    rw [hfill2.slots t, slot_empty (by rw [hn1]; exact hsize)]
  have hsize2 : (v2.inode n).size = 16 := by
    rw [hfill2.fields, hn1, hsize, hDE]
    rfl
  have hnum2 : (s2.inode ip).inum = n := (hs2 ip).1.trans hnum1
  simp only [not_true_eq_false, if_false, wp_bind]
  -- ".." goes to slot 1
  have hnone2 : lookup sb v2 (s2.inode ip).inum dotdot = none := by
    rw [hnum2, eq_none_iff_forall_ne_some]
    rintro ⟨m, t⟩ hlook
    have hs := lookup_some hlook
    rw [hslot2 t] at hs
    split_ifs at hs
    simp only [some.injEq, Prod.mk.injEq] at hs
    exact absurd hs.2 (by decide)
  refine wp_mono (dirlink_new hsb h2 (by rw [hl2, hl1]; exact hip) hnone2 hd0 hald.1 (by have := hald.1; omega)) ?_
  rw [hnum2]
  rintro _ s3 ⟨rfl, v3, t1, h3, hl3, hs3, hempty, hfill3⟩
  have ht1 : t1 = 1 := by
    have hin := hfill3.inside
    rw [hsize2, hDE] at hin
    have hne : t1 ≠ 0 := by
      rintro rfl
      rw [hslot2 0, if_pos rfl] at hempty
      cases hempty
    omega
  subst ht1
  simp only [not_true_eq_false, if_false, wp_pure]
  refine ⟨v3, h3, (hl3.trans hl2).trans hl1, still_trans (still_trans hs1 hs2) hs3, fun j hj => ?_, ?_, fun t => ?_⟩
  · exact sameDir_trans (sameDir_trans (hsame1 j) (sameDir_apart hfill2.apart hj)) (sameDir_apart hfill3.apart hj)
  · rw [hfill3.fields, hsize2, hDE]
    rfl
  · rw [hfill3.slots t, hslot2 t]
    split_ifs with h1 h0
    · omega
    · rfl
    · rfl
    · rfl

/-- create has returned inode ip, which is new -/
structure Created (sb : Super) (R : Ino → ℕ) (v : Image) (type : ℕ) (ip : Ino) (s' : Icache) (n : ℕ) (w : Image) : Prop where
  free : (v.inode n).type = 0
  state : At sb (R + one (some ip)) w s'
  entry : (s'.inode ip).inum = n
  type : (w.inode n).type = type
  nlink : (w.inode n).nlink = 1

/-- **create takes a free inode for a file.** -/
theorem createNew_at (hsb : sb.Ok) (hword : sb.ninodes ≤ 2 ^ 16) (h : At sb (R + one (some dp)) v s) (hdp : s.locks dp = true)
    (hsafe : R dp = 0 → Linked sb v d) (hd : (s.inode dp).inum = d) (hnone : lookup sb v d name = none) (hfile : type ≠ T_DIR)
    (htype : type < 2 ^ 16) (hmajor : major < 2 ^ 16) (hminor : minor < 2 ^ 16) :
    wp anyhow (createNew sb dev dp name type major minor) (fun ip s' => ∃ n w, Created sb R v type ip s' n w) s := by
  obtain ⟨-, hald⟩ := h.din hdp
  rw [hd] at hald
  refine wp_seq (ialloc_at hsb h htype) ?_
  rintro ip s1 ⟨n, hn0, hn, hfree, hnum1, h1, hl1, hs1⟩
  have hdn : d ≠ n := by
    rintro rfl
    exact hald.2 hfree
  refine wp_seq (ilock_at h1) ?_
  rintro - s2 ⟨h2, hfree2, hl2, hs2⟩
  have hne : dp ≠ ip := by
    rintro rfl
    rw [hl1, hdp] at hfree2
    cases hfree2
  have hdp2 : s2.locks dp = true := by rw [hl2, update_of_ne hne, hl1, hdp]
  -- the link count of the new inode
  refine wp_seq (updateFields_at hsb h2 (by rw [hl2, update_self]) hmajor hminor (by norm_num)) ?_
  rw [(hs2 ip).1, hnum1]
  set v1 := v.setInode n ⟨type, 0, 0, 0, 0, fun _ => 0⟩
  set di : Dinode := { v1.inode n with major := major, minor := minor, nlink := 1 } with hdi
  rintro - s3 ⟨h3, hl3, hs3⟩
  have hstill := still_trans hs2 hs3
  have hdp3 : (s3.inode dp).inum = d := ((hstill dp).1.trans (hs1 dp (by simp)).1).trans hd
  have hip3 : (s3.inode ip).inum = n := (hstill ip).1.trans hnum1
  have hsame : SameDir sb v (v1.setInode n di) d :=
    sameDir_trans (sameDir_apart apart_setInode hdn) (sameDir_apart apart_setInode hdn)
  have hd3 : (v1.setInode n di).inode d = v.inode d := (setInode_ne hdn).trans (setInode_ne hdn)
  refine wp_ite.2 ⟨fun ht => absurd ht hfile, fun _ => ?_⟩
  simp only [wp_bind, wp_get, hip3]
  refine wp_mono (dirlink_new hsb h3 (by rw [hl3]; exact hdp2) (by rw [hdp3, hsame.lookup]; exact hnone) hn0 hn (by omega)) ?_
  rw [hdp3]
  rintro _ s4 ⟨rfl, w, t, h4, -, hs4, -, hfill⟩
  simp only [not_true_eq_false, if_false, wp_bind, wp_pure]
  rw [add_right_comm] at h4
  refine wp_mono (iunlockput_at h4 fun hz => ?_) ?_
  · have hlink : (w.inode d).nlink = (v.inode d).nlink := by rw [hfill.fields, hd3]
    rw [(hs4 dp).1, hdp3]
    intro _
    rw [hlink]
    exact hsafe (Nat.eq_zero_of_add_eq_zero_right hz) hald
  · rintro - s5 ⟨h5, -, hs5⟩
    have hin1 : v1.inode n = ⟨type, 0, 0, 0, 0, fun _ => 0⟩ := setInode_self
    have hin : w.inode n = di := (hfill.apart.inode n hdn.symm).trans setInode_self
    refine ⟨n, w, hfree, h5, (hs5 ip).1.trans ((hs4 ip).1.trans hip3), ?_, ?_⟩
    · rw [hin, hdi, hin1]
    · rw [hin]

/-- what create returns -/
inductive CreateRet (sb : Super) (R : Ino → ℕ) (v : Image) (d : ℕ) (name : Name) (type : ℕ) (ip : Ino) (s' : Icache) : Prop
  | found (hit : lookup sb v d name ≠ none) (state : At sb (R + one (some ip)) v s')
      (safe : R ip = 0 → Linked sb v (s'.inode ip).inum)
  | made (miss : lookup sb v d name = none) (new : type ≠ T_DIR → ∃ n w, Created sb R v type ip s' n w)

theorem wp_any {α : Type} {m : FsM α} : wp anyhow m (fun _ _ => True) s := by
  rw [wp]
  cases m s <;> trivial

/-- **create returns an inode that was there or a new one, or it changes nothing.** -/
theorem create_at (hsb : sb.Ok) (hword : sb.ninodes ≤ 2 ^ 16) (hr : Rooted sb R v s) (h : At sb R v s) (hc : 0 < R c)
    (htype : type < 2 ^ 16) (hmajor : major < 2 ^ 16) (hminor : minor < 2 ^ 16) :
    wp anyhow (create sb dev c path type major minor) (fun r s' => (r = none → At sb R v s' ∧
        ∀ d name, walk sb v true (startAt (s.inode c).inum path) (elems path) = some (d, name) → lookup sb v d name ≠ none) ∧
      ∀ ip, r = some ip → ∃ d name, walk sb v true (startAt (s.inode c).inum path) (elems path) = some (d, name) ∧
        CreateRet sb R v d name type ip s') s := by
  refine wp_seq (namex_at hsb hr h hc) ?_
  rintro r s1 ⟨h1, -, hs1, hsafe1, hwalk⟩
  cases r with
  | none => exact ⟨fun _ => ⟨h1, fun d name hw => absurd (hwalk.trans hw) (by simp)⟩, (by intros; contradiction)⟩
  | some p =>
    obtain ⟨dp, name⟩ := p
    rw [map_some] at h1 hwalk
    simp only at h1 hwalk
    set d := (s1.inode dp).inum
    have hsafe : R dp = 0 → Linked sb v d := hsafe1 _ rfl
    refine wp_seq (ilock_at h1) ?_
    rintro - s2 ⟨h2, -, hl2, hs2⟩
    have hdp2 : s2.locks dp = true := by rw [hl2, update_self]
    have hnum2 : (s2.inode dp).inum = d := (hs2 dp).1
    refine wp_seq (dirlookup_at h2 hdp2 (rooted_more (rooted_same hr (same_trans hs1 hs2.same)))) ?_
    rw [hnum2]
    rintro r s3 ⟨h3, hl3, hs3, hsafe3, -, hlook⟩
    have hdp3 : (s3.inode dp).inum = d := (hs3 dp (by simp)).1.trans hnum2
    cases r with
    | some q =>
      obtain ⟨ip, off⟩ := q
      rw [map_some, add_right_comm] at h3
      have hhit : lookup sb v d name ≠ none := by
        intro hnone
        rw [hnone] at hlook
        cases hlook
      have hsafe0 : R ip = 0 → Linked sb v (s3.inode ip).inum := by
        intro hz
        by_cases hne : ip = dp
        · rw [hne] at hz ⊢
          rw [hdp3]
          exact hsafe hz
        · refine hsafe3 _ rfl ?_
          simp [one_some, Ne.symm hne, hz]
      refine wp_seq (iunlockput_at h3 fun hz => by rw [hdp3]; exact hsafe (Nat.eq_zero_of_add_eq_zero_right hz)) ?_
      rintro - s4 ⟨h4, -, hs4⟩
      refine wp_seq (ilock_at h4) ?_
      rintro - s5 ⟨h5, -, -, hs5⟩
      rw [← ((hs5 ip).1.trans (hs4 ip).1)] at hsafe0
      simp only [wp_bind, wp_get, wp_ite, wp_pure]
      refine ⟨fun _ => ⟨(by intros; contradiction), ?_⟩, fun _ => ?_⟩
      · rintro _ ⟨⟩
        exact ⟨d, name, hwalk.symm, .found hhit h5 hsafe0⟩
      · refine wp_mono (iunlockput_at h5 hsafe0) ?_
        rintro - s6 ⟨h6, -⟩
        refine ⟨fun _ => ⟨h6, fun d' name' hw => ?_⟩, (by intros; contradiction)⟩
        cases hwalk.trans hw
        exact hhit
    | none =>
      have hmiss : lookup sb v d name = none := by simpa using hlook.symm
      have hnew : wp anyhow (createNew sb dev dp name type major minor) (fun ip s' =>
          type ≠ T_DIR → ∃ n w, Created sb R v type ip s' n w) s3 := by
        by_cases hfile : type = T_DIR
        · exact wp_mono wp_any fun _ _ _ hne => absurd hfile hne
        · exact wp_mono (createNew_at hsb hword h3 (by rw [hl3]; exact hdp2) hsafe hdp3 hmiss hfile htype hmajor hminor)
            fun _ _ hmade _ => hmade
      refine wp_seq hnew fun ip s4 hmade => ⟨(by intros; contradiction), ?_⟩
      rintro _ ⟨⟩
      exact ⟨d, name, hwalk.symm, .made hmiss hmade⟩

/-! ## link -/

/-- a link more in the count of inode n -/
def Image.linked (v : Image) (n : ℕ) : Image := v.setInode n { v.inode n with nlink := ((v.inode n).nlink + 1) % 2 ^ 16 }

theorem sameDir_linked (hal : allocated sb v n) : SameDir sb v (v.linked n) d := sameDir_fields hal rfl rfl rfl

/-- a reference to the inode makes up for the link that it may lose -/
theorem rooted_linked (hr : Rooted sb R v s) (hal : allocated sb v n) (hn : (s.inode ip).inum = n) :
    Rooted sb (R + one (some ip)) (v.linked n) s := by
  have hkeep : ∀ m, Anchored sb R v s m → Anchored sb (R + one (some ip)) (v.linked n) s m := by
    rintro m hm
    by_cases hmn : m = n
    · exact .inr ⟨ip, by simp, by rw [hmn, hn]⟩
    · rcases hm with hl | ⟨e, he, hem⟩
      · refine .inl ?_
        rw [Linked, allocated, Image.linked, setInode_ne hmn]
        exact hl
      · exact .inr ⟨e, Nat.lt_add_right _ he, hem⟩
  refine ⟨hkeep _ hr.root, fun d t m nm hd ht hslot => hkeep m (hr.slots d t m nm ?_ ?_ ?_)⟩
  · rw [allocated, (sameDir_linked hal).type] at hd
    exact hd
  · rw [(sameDir_linked hal).type] at ht
    exact ht
  · rw [(sameDir_linked hal).slots] at hslot
    exact hslot

/-- whatever the number is -/
theorem dirlink_true (h : At sb R v s) (hl : s.locks dp = true) (hnone : lookup sb v (s.inode dp).inum name = none) :
    wp anyhow (dirlink sb dev dp name n) (fun r _ => r = true) s := by
  refine wp_seq (wp_seq (lookupEntry_at h hl) (S := fun r _ => r = none) ?_) ?_
  · rintro r s1 ⟨rfl, -, hr⟩
    rw [hnone] at hr
    subst hr
    exact rfl
  · rintro _ s1 rfl
    exact wp_seq wp_any fun _ _ _ => rfl

theorem dirlink_found (h : At sb R v s) (hl : s.locks dp = true) (hr : Rooted sb R v s)
    (hhit : lookup sb v (s.inode dp).inum name ≠ none) : wp anyhow (dirlink sb dev dp name n) (fun r s' =>
      r = false ∧ At sb R v s' ∧ Same R s s') s := by
  refine wp_seq (dirlookup_at h hl hr) ?_
  rintro r s1 ⟨h1, -, hs1, hsafe1, -, hlook⟩
  cases r with
  | none => exact absurd (by simpa using hlook.symm) hhit
  | some p =>
    refine wp_seq (iput_at h1 (hsafe1 p rfl)) ?_
    rintro - s2 ⟨h2, -, hs2⟩
    exact ⟨rfl, h2, same_trans hs1 hs2.same⟩

/-- link takes the count back -/
theorem linkBad_at (hsb : sb.Ok) (h : At sb (R + one (some ip)) (v.linked n) s) (hn : (s.inode ip).inum = n)
    (hwf : (v.inode n).nlink < 2 ^ 16) (hsafe : R ip = 0 → Linked sb v n) : wp anyhow (linkBad sb ip) (fun _ s' =>
      At sb R v s') s := by
  refine wp_seq (ilock_at h) ?_
  rintro - s1 ⟨h1, -, hl1, hs1⟩
  have hnum1 : (s1.inode ip).inum = n := (hs1 ip).1.trans hn
  refine wp_seq (dropLink_at hsb h1 (by rw [hl1, update_self])) ?_
  rw [hnum1]
  rintro - s2 ⟨h2, -, hs2⟩
  have hundo : (v.linked n).setInode n
      { (v.linked n).inode n with nlink := (((v.linked n).inode n).nlink + (2 ^ 16 - 1)) % 2 ^ 16 } = v := by
    have hk : (((v.inode n).nlink + 1) % 2 ^ 16 + (2 ^ 16 - 1)) % 2 ^ 16 = (v.inode n).nlink := by omega
    rw [Image.linked, setInode_setInode, setInode_self]
    simp only [hk, Image.setInode, update_eq_self]
  rw [hundo] at h2
  refine wp_seq (iunlockput_at h2 fun hz => ?_) fun _ _ h3 => h3.1
  rw [(hs2 ip).1, hnum1]
  exact hsafe hz

/-- **A link that returns -1 has changed nothing.** -/
theorem link_at (hsb : sb.Ok) (hr : Rooted sb R v s) (h : At sb R v s) (hc : 0 < R c) : wp anyhow (link sb dev c old new) (fun r s' =>
    r = false → At sb R v s') s := by
  refine wp_seq (namei_at hsb hr h hc) ?_
  rintro r s1 ⟨h1, -, hs1, hsafe1, -⟩
  cases r with
  | none => exact fun _ => h1
  | some ip =>
    set n := (s1.inode ip).inum
    have hsafe : R ip = 0 → Linked sb v n := hsafe1 ip rfl
    refine wp_seq (ilock_at h1) ?_
    rintro - s2 ⟨h2, -, hl2, hs2⟩
    have hip2 : s2.locks ip = true := by rw [hl2, update_self]
    have hnum2 : (s2.inode ip).inum = n := (hs2 ip).1
    obtain ⟨hdin, hal⟩ := h2.din hip2
    have hwf := (h2.sound hip2).1.ok.wf.nlink
    change (s2.inode ip).din.nlink < _ at hwf
    rw [hdin, hnum2] at hwf
    rw [hnum2] at hal
    simp only [wp_bind, wp_get, wp_ite]
    refine ⟨fun _ => wp_mono (iunlockput_at h2 (by rw [hnum2]; exact hsafe)) fun _ _ h3 _ => h3.1, fun _ => ?_⟩
    refine wp_mono (addLink_at hsb h2 hip2) ?_
    rw [hnum2]
    rintro - s3 ⟨h3, -, hs3⟩
    change At sb _ (v.linked n) s3 at h3
    refine wp_mono (iunlock_at h3) ?_
    rintro - s4 ⟨h4, -, hs4⟩
    have hs24 := still_trans hs3 hs4
    have hnum4 : (s4.inode ip).inum = n := (hs24 ip).1.trans hnum2
    have hr4 := rooted_linked (rooted_same hr (same_trans hs1 (still_trans hs2 hs24).same)) hal hnum4
    refine wp_mono (namex_at hsb hr4 h4 (Nat.lt_add_right _ hc)) ?_
    rintro r s5 ⟨h5, -, hs5, hsafe5, -⟩
    have hnum5 : (s5.inode ip).inum = n := (hs5 ip (by simp)).1.trans hnum4
    cases r with
    | none => exact wp_mono (linkBad_at hsb h5 hnum5 hwf hsafe) fun _ _ h6 _ => h6
    | some p =>
      obtain ⟨dp, name⟩ := p
      refine wp_seq (ilock_at h5) ?_
      rintro - s6 ⟨h6, -, hl6, hs6⟩
      have hdp6 : s6.locks dp = true := by rw [hl6, update_self]
      simp only [wp_bind, wp_get]
      by_cases hmiss : lookup sb (v.linked n) (s6.inode dp).inum name = none
      · -- there is an entry for the link, whatever happens to it
        refine wp_mono (dirlink_true h6 hdp6 hmiss) ?_
        rintro _ s7 rfl
        simp only [not_true_eq_false, if_false, wp_bind, wp_pure]
        exact wp_mono wp_any fun _ _ _ => wp_mono wp_any fun _ _ _ => (by intros; contradiction)
      · refine wp_mono (dirlink_found h6 hdp6 (rooted_more (rooted_same hr4 (same_trans hs5 hs6.same))) hmiss) ?_
        rintro _ s7 ⟨rfl, h7, hs7⟩
        have hnum7 : (s7.inode ip).inum = n := ((hs7 ip (by simp)).1.trans (hs6 ip).1).trans hnum5
        simp only [Bool.false_eq_true, not_false_eq_true, if_true, wp_bind]
        refine wp_mono (iunlockput_at h7 (by rw [(hs7 dp (by simp)).1, (hs6 dp).1]; exact hsafe5 _ rfl)) ?_
        rintro - s8 ⟨h8, -, hs8⟩
        exact wp_mono (linkBad_at hsb h8 ((hs8 ip).1.trans hnum7) hwf hsafe) fun _ _ h9 _ => h9

/-! ## unlink -/

theorem unlinkEntry_true {t : ℕ} : wp anyhow (do
      onInode dp (writeDirent sb dev "unlink: writei" (DESIZE * t) emptyDirent)
      if type = T_DIR then dropLink sb dp
      iunlockput sb dp
      dropLink sb ip
      iunlockput sb ip
      return true) (fun r _ => r = true) s := by
  have hend : ∀ s, wp anyhow (do
      iunlockput sb dp
      dropLink sb ip
      iunlockput sb ip
      return true) (fun r _ => r = true) s := fun s =>
    wp_seq wp_any fun _ _ _ => wp_seq wp_any fun _ _ _ => wp_seq wp_any fun _ _ _ => rfl
  refine wp_seq wp_any fun _ s1 _ => wp_ite.2 ⟨fun _ => wp_seq wp_any fun _ s2 _ => hend s2, fun _ => hend s1⟩

/-- **An unlink that returns -1 has changed nothing.** -/
theorem unlink_at (hr : Rooted sb R v s) (h : At sb (R + one (some dp)) v s) (hsafe : R dp = 0 → Linked sb v (s.inode dp).inum) :
    wp anyhow (unlink sb dev dp name) (fun r s' => r = false → At sb R v s') s := by
  refine wp_seq (ilock_at h) ?_
  rintro - s1 ⟨h1, -, hl1, hs1⟩
  have hdp1 : s1.locks dp = true := by rw [hl1, update_self]
  rw [← (hs1 dp).1] at hsafe
  simp only [wp_ite, wp_bind, wp_pure]
  refine ⟨fun _ => wp_mono (iunlockput_at h1 hsafe) fun _ _ h2 _ => h2.1, fun _ => ?_⟩
  refine wp_mono (dirlookup_at h1 hdp1 (rooted_more (rooted_same hr hs1.same))) ?_
  rintro r s2 ⟨h2, -, hs2, hsafe2, -, hlook⟩
  rw [← (hs2 dp (by simp)).1] at hsafe
  cases r with
  | none => exact wp_seq (iunlockput_at h2 hsafe) fun _ _ h3 _ => h3.1
  | some p =>
    obtain ⟨ip, off⟩ := p
    obtain ⟨⟨n, t⟩, -, hpair⟩ := map_eq_some_iff.1 hlook.symm
    simp only [Prod.mk.injEq] at hpair
    obtain ⟨-, rfl⟩ := hpair
    refine wp_seq (ilock_at h2) ?_
    rintro - s3 ⟨h3, -, hl3, hs3⟩
    have hip3 : s3.locks ip = true := by rw [hl3, update_self]
    rw [← (hs3 dp).1] at hsafe
    have hsafei : (R + one (some dp)) ip = 0 → Linked sb v (s3.inode ip).inum := by
      rw [(hs3 ip).1]
      exact hsafe2 _ rfl
    refine wp_bind.2 (wp_get.2 ?_)
    refine wp_ite.2 ⟨fun _ => trivial, fun _ => ?_⟩
    refine wp_ite.2 ⟨fun ht => ?_, fun _ => wp_bind.2 (wp_pure.2 ?_)⟩
    · rw [(h3.din hip3).1] at ht
      refine wp_seq (isdirempty_at h3 hip3 (by rw [ht]; decide)) ?_
      rintro empty s4 ⟨rfl, -⟩
      cases empty with
      | false =>
        simp only [Bool.false_eq_true, not_false_eq_true, if_true, wp_bind, wp_pure]
        refine wp_mono (iunlockput_at h3 hsafei) ?_
        rintro - s5 ⟨h5, -, hs5⟩
        exact wp_mono (iunlockput_at h5 (by rw [(hs5 dp).1]; exact hsafe)) fun _ _ h6 _ => h6.1
      | true => exact wp_mono unlinkEntry_true fun _ _ hr hf => absurd (hr.symm.trans hf) (by simp)
    · exact wp_mono unlinkEntry_true fun _ _ hr hf => absurd (hr.symm.trans hf) (by simp)

end Xv6.Fs
