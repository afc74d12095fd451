/-
The disk driver's books: what holds of the queue, the disk and the buffers at each label of iderw and ideintr.

`Book` holds in every state: the requests appended are those completed and then those pending; a pending buffer belongs to
a call and is not synced; every other buffer, and the disk, is what the replay makes of the completed, or served, requests.
`Stage` is where the disk is: idle with everything completed, busy with the first pending request, or done with it. `Inv`
adds what holds while idelock is free: if there is a queue, the disk has been started on its head.

Results:
- `Harmless`, `complete_harmless`, `fill_harmless`, `take_harmless`: what the disk does, and the beginning of a call, change
  nothing that another process knows;
- `keeps_append`, `keeps_startAt`, `keeps_done`, `keeps_pop`, `keeps_insl`: each access under idelock keeps the books.
-/
import Xv6.Sync.Ide

namespace Xv6

open Monitor Runs Function List

namespace Ide

variable {ι β Block : Type} [DecidableEq β]

/-! ## What holds at the labels -/

/-- the requests that are appended and not completed -/
def Driver.pending (d : Driver ι β Block) : List β := d.active.toList ++ d.queue

/-- the disk has nothing to do, and every request that was started is completed -/
structure Idle (d : Driver ι β Block) : Prop where
  started : d.started = d.completed
  served : d.served = d.completed
  device : ∃ sector, d.device = .ready sector .none

/-- the disk is busy with the request for b -/
structure Busy (d : Driver ι β Block) (b : β) : Prop where
  started : d.started = d.completed ++ [d.request b]
  served : d.served = d.completed
  device : d.device = .busy b (d.buf b)
  active : d.active = none
  range : (d.buf b).blockno < FSSIZE

/-- the disk has served the request for b, and ideintr has not completed it -/
structure Served (d : Driver ι β Block) (b : β) (irq : Irq ι) : Prop where
  started : d.started = d.completed ++ [d.request b]
  served : d.served = d.completed ++ [d.request b]
  device : ∃ sector, d.device = .ready sector irq ∧
    ((d.buf b).dirty = false → sector = d.disk ((d.buf b).dev % 2) (d.buf b).blockno)

/-- where the disk is with the requests -/
inductive Stage (d : Driver ι β Block) : Prop
  | idle (h : Idle d)
  | busy {b : β} {p : List β} (hp : d.pending = b :: p) (h : Busy d b)
  | served {b : β} {p : List β} {q : Irq ι} (hp : d.pending = b :: p) (h : Served d b q)
      (ha : q ≠ .none → d.active = none)

/-- what holds in every state: the books -/
structure Book (w : World β Block) (d : Driver ι β Block) : Prop where
  log : d.appended = d.completed ++ d.pending.map d.request
  nodup : d.pending.Nodup
  owned : ∀ b ∈ d.pending, d.owner b ≠ none
  unsynced : ∀ b ∈ d.pending, (d.buf b).synced = false
  rest : ∀ b, d.owner b = none → d.buf b = (replay w d.completed).buf b
  disk : d.disk = (replay w d.served).disk
  fine : ∀ q ∈ d.served, q.2.synced = false ∧ q.2.blockno < FSSIZE
  stage : Stage d

/-- if there is a queue, its head is being served, or its interrupt is on the way -/
def Live (d : Driver ι β Block) : Prop := d.queue ≠ [] → ¬ Idle d

structure Inv (w : World β Block) (d : Driver ι β Block) : Prop where
  book : Book w d
  active : d.active = none
  live : Live d

/-- process i has called iderw on b, and b is not on the queue yet -/
structure Called (i : ι) (b : β) (d : Driver ι β Block) : Prop where
  owner : d.owner b = some i
  off : b ∉ d.pending
  synced : (d.buf b).synced = false

/-- the last request for b is completed -/
structure Done (w : World β Block) (b : β) (d : Driver ι β Block) : Prop where
  off : b ∉ d.pending
  synced : (d.buf b).synced = true
  result : d.buf b = (replay w d.completed).buf b

/-- process i is in iderw on b, and b was put on the queue -/
def Waits (w : World β Block) (i : ι) (b : β) (d : Driver ι β Block) : Prop :=
  d.owner b = some i ∧ (b ∈ d.pending ∨ Done w b d)

/-- process i runs ideintr for the disk's interrupt -/
def Taken (i : ι) (d : Driver ι β Block) : Prop := ∃ sector, d.device = .ready sector (.taken i)

def held : Label β Block → Prop
  | .outside | .rw _ _ | .intr => False
  | _ => True

def atLabel (w : World β Block) (i : ι) : Label β Block → Driver ι β Block → Prop
  | .append b, d => Inv w d ∧ Called i b d
  | .first b, d => Book w d ∧ d.active = none ∧ Waits w i b d ∧ (d.queue.head? = some b → Idle d) ∧
      (d.queue.head? ≠ some b → Live d)
  | .start b, d => Book w d ∧ d.active = none ∧ Waits w i b d ∧ d.queue.head? = some b ∧ Idle d
  | .loop b, d => Inv w d ∧ Waits w i b d
  | .wait b, d => Inv w d ∧ Waits w i b d ∧ (d.buf b).synced = false
  | .done b, d => Inv w d ∧ d.owner b = some i ∧ Done w b d
  | .pop, d => Inv w d ∧ Taken i d
  | .insl b, d => Book w d ∧ d.active = some b ∧ Served d b .none
  | .wake _, d | .next, d => Book w d ∧ d.active = none ∧ Idle d
  | .restart b, d => Book w d ∧ d.active = none ∧ d.queue.head? = some b ∧ Idle d
  | .leave, d => Inv w d
  | .panicked, d => Book w d
  | .outside, _ | .rw _ _, _ | .intr, _ => True

/-- a buffer with a request is inside a call of iderw -/
def Owned (d : Driver ι β Block) : Prop := ∀ b ∈ d.pending, d.owner b ≠ none

def away (w : World β Block) (i : ι) : Label β Block → Driver ι β Block → Prop
  | .outside, d => Owned d
  | .rw b _, d => Called i b d
  | .loop b, d => Waits w i b d
  | .intr, d => Taken i d
  | _, _ => True

variable {w : World β Block} {i j : ι} {d d' : Driver ι β Block} {b : β}

omit [DecidableEq β] in
theorem pending_of_none (h : d.active = none) : d.pending = d.queue := by simp [Driver.pending, h]

/-! ## Changes made without the lock -/

/-- a change that leaves process j what it knows -/
structure Harmless (w : World β Block) (j : ι) (d d' : Driver ι β Block) : Prop where
  queue : d'.queue = d.queue
  active : d'.active = d.active
  book : Book w d → Book w d'
  live : Book w d → Live d → Live d'
  idle : Idle d → Idle d'
  served : ∀ b, Book w d → d.active = some b → Served d b .none → Served d' b .none
  owner : ∀ b, d.owner b = some j → d'.owner b = some j ∧ d'.buf b = d.buf b
  completed : d'.completed = d.completed
  owned : Owned d → Owned d'
  taken : Taken j d → Taken j d'

section Harmless

variable (h : Harmless w j d d') {l : Label β Block}

include h

theorem harmless_pending : d'.pending = d.pending := by rw [Driver.pending, h.active, h.queue, Driver.pending]

theorem harmless_inv (hi : Inv w d) : Inv w d' :=
  ⟨h.book hi.book, by rw [h.active]; exact hi.active, h.live hi.book hi.live⟩

theorem harmless_called (hc : Called j b d) : Called j b d' := by
  obtain ⟨ho, hb⟩ := h.owner b hc.owner
  exact ⟨ho, by rw [harmless_pending h]; exact hc.off, by rw [hb]; exact hc.synced⟩

theorem harmless_done (ho : d.owner b = some j) (hd : Done w b d) : Done w b d' := by
  obtain ⟨-, hb⟩ := h.owner b ho
  exact ⟨by rw [harmless_pending h]; exact hd.off, by rw [hb]; exact hd.synced, by rw [hb, h.completed]; exact hd.result⟩

theorem harmless_waits (hw : Waits w j b d) : Waits w j b d' := by
  refine ⟨(h.owner b hw.1).1, hw.2.imp (fun hp => ?_) (harmless_done h hw.1)⟩
  rwa [harmless_pending h]

theorem harmless_atLabel (ha : atLabel w j l d) : atLabel w j l d' := by
  have hact := h.active
  have hq := h.queue
  cases l with
  | outside | rw _ _ | intr => trivial
  | append b => exact ⟨harmless_inv h ha.1, harmless_called h ha.2⟩
  | first b =>
    obtain ⟨h1, h2, h3, h4, h5⟩ := ha
    refine ⟨h.book h1, hact.trans h2, harmless_waits h h3, fun e => h.idle (h4 ?_), fun e => h.live h1 (h5 ?_)⟩ <;> rwa [← hq]
  | start b =>
    obtain ⟨h1, h2, h3, h4, h5⟩ := ha
    exact ⟨h.book h1, hact.trans h2, harmless_waits h h3, by rw [hq]; exact h4, h.idle h5⟩
  | loop b => exact ⟨harmless_inv h ha.1, harmless_waits h ha.2⟩
  | wait b => exact ⟨harmless_inv h ha.1, harmless_waits h ha.2.1, by rw [(h.owner b ha.2.1.1).2]; exact ha.2.2⟩
  | done b => exact ⟨harmless_inv h ha.1, (h.owner b ha.2.1).1, harmless_done h ha.2.1 ha.2.2⟩
  | pop => exact ⟨harmless_inv h ha.1, h.taken ha.2⟩
  | insl b =>
    obtain ⟨h1, h2, h3⟩ := ha
    exact ⟨h.book h1, hact.trans h2, h.served b h1 h2 h3⟩
  | wake b | next => exact ⟨h.book ha.1, hact.trans ha.2.1, h.idle ha.2.2⟩
  | restart b => exact ⟨h.book ha.1, hact.trans ha.2.1, by rw [hq]; exact ha.2.2.1, h.idle ha.2.2.2⟩
  | leave => exact harmless_inv h ha
  | panicked => exact h.book ha

theorem harmless_away (ha : away w j l d) : away w j l d' := by
  cases l with
  | outside => exact h.owned ha
  | rw b r => exact harmless_called h ha
  | loop b => exact harmless_waits h ha
  | intr => exact h.taken ha
  | _ => trivial

end Harmless

/-! ### The disk -/

omit [DecidableEq β] in
theorem complete_ready {sector : Block} {irq : Irq ι} (h : d.device = .ready sector irq) : complete d = d := by
  simp [complete, h]

omit [DecidableEq β] in
theorem stage_busy (hs : Stage d) {r : Buf Block} (h : d.device = .busy b r) :
    r = d.buf b ∧ Busy d b ∧ ∃ rest, d.pending = b :: rest := by
  cases hs with
  | idle hi => obtain ⟨_, e⟩ := hi.device; rw [e] at h; cases h
  | served hp hs => obtain ⟨_, e, -⟩ := hs.device; rw [e] at h; cases h
  | busy hp hb =>
    rw [hb.device] at h
    cases h
    exact ⟨rfl, hb, _, hp⟩

omit [DecidableEq β] in
theorem complete_served (h : Busy d b) : Served (complete d) b .raised := by
  have he : (complete d).request b = d.request b := by simp [complete, h.device, Driver.request]
  refine ⟨?_, ?_, ?_⟩
  · rw [he]; simpa [complete, h.device] using h.started
  · simp [complete, h.device, h.served, Driver.request]
  · refine ⟨d.disk ((d.buf b).dev % 2) (d.buf b).blockno, by simp [complete, h.device], fun hd => ?_⟩
    simp only [complete, h.device] at hd ⊢
    simp [setBlock, hd]

theorem complete_book (h : Book w d) : Book w (complete d) := by
  cases hdev : d.device with
  | ready sector irq => rw [complete_ready hdev]; exact h
  | busy b r =>
    obtain ⟨rfl, hb, rest, hp⟩ := stage_busy h.stage hdev
    have hmem : b ∈ d.pending := by rw [hp]; exact mem_cons_self
    have hserved := complete_served hb
    have he : complete d = { d with
        device := .ready (d.disk ((d.buf b).dev % 2) (d.buf b).blockno) .raised
        disk := setBlock d.disk (d.buf b)
        served := d.served ++ [(b, d.buf b)] } := by simp [complete, hdev]
    refine ⟨by rw [he]; exact h.log, by rw [he]; exact h.nodup, by rw [he]; exact h.owned, by rw [he]; exact h.unsynced,
      by rw [he]; exact h.rest, ?_, ?_, .served (by rw [he]; exact hp) hserved fun _ => by rw [he]; exact hb.active⟩
    · rw [he]
      simp only [replay_append, transfer, h.disk]
    · rw [he]
      intro q hqm
      rcases mem_append.1 hqm with hqm | hqm
      · exact h.fine q hqm
      · rw [mem_singleton.1 hqm]
        exact ⟨h.unsynced b hmem, hb.range⟩

omit [DecidableEq β] in
theorem complete_keeps : (complete d).queue = d.queue ∧ (complete d).active = d.active ∧
    (complete d).completed = d.completed ∧ (complete d).owner = d.owner ∧ (complete d).buf = d.buf := by
  unfold complete
  split <;> exact ⟨rfl, rfl, rfl, rfl, rfl⟩

omit [DecidableEq β] in
theorem complete_live (hl : Live d) : Live (complete d) := by
  intro hne hi
  cases hdev : d.device with
  | ready sector irq => rw [complete_ready hdev] at hi hne; exact hl hne hi
  | busy c r =>
    obtain ⟨_, e⟩ := hi.device
    simp [complete, hdev] at e

theorem complete_inv (h : Inv w d) : Inv w (complete d) :=
  ⟨complete_book h.book, by rw [complete_keeps.2.1]; exact h.active, complete_live h.live⟩

theorem complete_harmless (j : ι) : Harmless w j d (complete d) := by
  obtain ⟨hq, ha, hc, ho, hb⟩ := complete_keeps (d := d)
  refine ⟨hq, ha, complete_book, fun _ => complete_live, fun h => ?_, fun b _ _ hs => ?_, fun b h => ?_, hc, ?_, fun h => ?_⟩
  · obtain ⟨_, e⟩ := h.device
    rwa [complete_ready e]
  · obtain ⟨_, e, -⟩ := hs.device
    rwa [complete_ready e]
  · rw [ho, hb]; exact ⟨h, rfl⟩
  · intro h
    rwa [Owned, Driver.pending, hq, ha, ho]
  · obtain ⟨_, e⟩ := h
    rw [complete_ready e]
    exact ⟨_, e⟩

/-! ### Calls -/

/-- process i calls iderw on b, with these contents -/
def Driver.fill (d : Driver ι β Block) (i : ι) (b : β) (r : Buf Block) : Driver ι β Block :=
  { d with buf := update d.buf b r, owner := update d.owner b (some i) }

section Fill

variable {r : Buf Block} {c : β} {irq : Irq ι}

theorem fill_buf (h : c ≠ b) : (d.fill i b r).buf c = d.buf c := by simp [Driver.fill, h]

theorem fill_owner (h : c ≠ b) : (d.fill i b r).owner c = d.owner c := by simp [Driver.fill, h]

theorem fill_request (h : c ≠ b) : (d.fill i b r).request c = d.request c := by simp [Driver.request, fill_buf h]

theorem fill_idle : Idle (d.fill i b r) ↔ Idle d :=
  ⟨fun h => ⟨h.started, h.served, h.device⟩, fun h => ⟨h.started, h.served, h.device⟩⟩

theorem fill_busy (hc : c ≠ b) (h : Busy d c) : Busy (d.fill i b r) c :=
  ⟨by rw [fill_request hc]; exact h.started, h.served, by rw [fill_buf hc]; exact h.device, h.active,
    by rw [fill_buf hc]; exact h.range⟩

theorem fill_served (hc : c ≠ b) (h : Served d c irq) : Served (d.fill i b r) c irq :=
  ⟨by rw [fill_request hc]; exact h.started, by rw [fill_request hc]; exact h.served, by rw [fill_buf hc]; exact h.device⟩

theorem fill_stage (hb : b ∉ d.pending) (h : Stage d) : Stage (d.fill i b r) := by
  have hne {c : β} {rest : List β} (hp : d.pending = c :: rest) : c ≠ b := by
    rintro rfl
    exact hb (by rw [hp]; exact mem_cons_self)
  cases h with
  | idle h => exact .idle (fill_idle.2 h)
  | busy hp h => exact .busy hp (fill_busy (hne hp) h)
  | served hp h ha => exact .served hp (fill_served (hne hp) h) ha

theorem fill_book (hf : d.owner b = none) (h : Book w d) : Book w (d.fill i b r) := by
  have hb : b ∉ d.pending := fun hm => h.owned b hm hf
  have hne {c : β} (hc : c ∈ d.pending) : c ≠ b := fun e => hb (e ▸ hc)
  refine ⟨?_, h.nodup, fun c hc => ?_, fun c hc => ?_, fun c hc => ?_, h.disk, h.fine, fill_stage hb h.stage⟩
  · have : d.pending.map (d.fill i b r).request = d.pending.map d.request :=
      map_congr_left fun c hc => fill_request (hne hc)
    exact h.log.trans (by rw [← this]; rfl)
  · rw [fill_owner (hne hc)]; exact h.owned c hc
  · rw [fill_buf (hne hc)]; exact h.unsynced c hc
  · have hcb : c ≠ b := by
      rintro rfl
      simp [Driver.fill] at hc
    rw [fill_owner hcb] at hc
    rw [fill_buf hcb]
    exact h.rest c hc

theorem fill_harmless (hf : d.owner b = none) (j : ι) : Harmless w j d (d.fill i b r) := by
  refine ⟨rfl, rfl, fill_book hf, fun _ hl hne hi => hl hne (fill_idle.1 hi), fill_idle.2, fun c hk ha hs => ?_, fun c hc => ?_,
    rfl, fun ho c hc => ?_, id⟩
  · refine fill_served ?_ hs
    rintro rfl
    exact hk.owned c (by simp [Driver.pending, ha]) hf
  · have hcb : c ≠ b := by
      rintro rfl
      rw [hf] at hc; cases hc
    rw [fill_owner hcb, fill_buf hcb]
    exact ⟨hc, rfl⟩
  · by_cases e : c = b
    · simp [Driver.fill, e]
    · rw [fill_owner e]; exact ho c hc

end Fill

/-- process i takes the interrupt -/
def Driver.take (d : Driver ι β Block) (i : ι) (sector : Block) : Driver ι β Block :=
  { d with device := .ready sector (.taken i) }

section Take

variable {sector : Block} (hdev : d.device = .ready sector .raised)

include hdev

theorem take_book (h : Book w d) : Book w (d.take i sector) := by
  refine ⟨h.log, h.nodup, h.owned, h.unsynced, h.rest, h.disk, h.fine, ?_⟩
  cases h.stage with
  | idle hi => obtain ⟨_, e⟩ := hi.device; rw [hdev] at e; cases e
  | busy hp hb => have e := hb.device; rw [hdev] at e; cases e
  | served hp hs ha =>
    obtain ⟨_, e, hread⟩ := hs.device
    rw [hdev] at e
    cases e
    exact .served (q := .taken i) hp ⟨hs.started, hs.served, sector, rfl, hread⟩ fun _ => ha (by simp)

theorem take_harmless (j : ι) : Harmless w j d (d.take i sector) := by
  refine ⟨rfl, rfl, take_book hdev, fun _ _ _ hi => ?_, fun hi => ?_, fun c _ _ hs => ?_, fun c hc => ⟨hc, rfl⟩, rfl, id,
    fun ht => ?_⟩
  · obtain ⟨_, e⟩ := hi.device; cases e
  · obtain ⟨_, e⟩ := hi.device; rw [hdev] at e; cases e
  · obtain ⟨_, e, -⟩ := hs.device; rw [hdev] at e; cases e
  · obtain ⟨_, e⟩ := ht; rw [hdev] at e; cases e

end Take

/-- the two ways to begin a call -/
theorem enter_cases (h : enter i l d = some d') :
    (∃ b r, l = .rw b r ∧ d.owner b = none ∧ r.synced = false ∧ d' = d.fill i b r) ∨
      l = .intr ∧ ∃ sector, d.device = .ready sector .raised ∧ d' = d.take i sector := by
  cases l with
  | rw b r =>
    simp only [enter] at h
    split_ifs at h with hc
    cases h
    exact .inl ⟨b, r, rfl, hc.1, hc.2.1, rfl⟩
  | intr =>
    simp only [enter] at h
    split at h
    · rename_i sector hdev
      cases h
      exact .inr ⟨rfl, sector, hdev, rfl⟩
    · cases h
  | _ => cases h

/-! ## Accesses under the lock -/

/-- an access that leaves process j, which is away, what it knows -/
structure Spares (w : World β Block) (j : ι) (d d' : Driver ι β Block) : Prop where
  called : ∀ b, Called j b d → Called j b d'
  waits : ∀ b, Waits w j b d → Waits w j b d'
  taken : Taken j d → Taken j d'

theorem spares_away (h : Spares w j d d') (hb : Book w d') (ha : away w j l d) : away w j l d' := by
  cases l with
  | outside => exact hb.owned
  | rw b r => exact h.called b ha
  | loop b => exact h.waits b ha
  | intr => exact h.taken ha
  | _ => trivial

omit [DecidableEq β] in
/-- the disk is idle, so no handler is on the way -/
theorem idle_not_taken (h : Idle d) : ¬ Taken j d := by
  rintro ⟨_, e⟩
  obtain ⟨_, e'⟩ := h.device
  rw [e] at e'
  cases e'

omit [DecidableEq β] in
theorem head_ne {c : β} {i j : ι} (hi : d.owner b = some i) (hj : d.owner c = some j) (h : j ≠ i) : c ≠ b := by
  rintro rfl
  rw [hi] at hj
  exact h (Option.some.inj hj).symm

/-! ### iderw -/

def Driver.join (d : Driver ι β Block) (b : β) : Driver ι β Block :=
  { d with queue := d.queue ++ [b], appended := d.appended ++ [d.request b] }

omit [DecidableEq β] in
theorem pending_join : (d.join b).pending = d.pending ++ [b] := by simp [Driver.pending, Driver.join]

omit [DecidableEq β] in
theorem join_idle : Idle (d.join b) ↔ Idle d :=
  ⟨fun h => ⟨h.started, h.served, h.device⟩, fun h => ⟨h.started, h.served, h.device⟩⟩

theorem join_book (h : Book w d) (hc : Called i b d) : Book w (d.join b) := by
  have hp := pending_join (d := d) (b := b)
  refine ⟨?_, ?_, fun c hm => ?_, fun c hm => ?_, h.rest, h.disk, h.fine, ?_⟩
  · rw [hp, map_append, ← append_assoc]
    show d.appended ++ [d.request b] = _
    rw [h.log]
    rfl
  · rw [hp]
    exact nodup_append.2 ⟨h.nodup, nodup_singleton b, fun c hm c' hm' => by
      rw [mem_singleton.1 hm']; rintro rfl; exact hc.off hm⟩
  · rw [hp] at hm
    rcases mem_append.1 hm with hm | hm
    · exact h.owned c hm
    · rw [mem_singleton.1 hm]
      show d.owner b ≠ none
      rw [hc.owner]; simp
  · rw [hp] at hm
    rcases mem_append.1 hm with hm | hm
    · exact h.unsynced c hm
    · rw [mem_singleton.1 hm]; exact hc.synced
  · cases h.stage with
    | idle hi => exact .idle (join_idle.2 hi)
    | busy e hb =>
      exact .busy (by rw [hp, e]; rfl) ⟨hb.started, hb.served, hb.device, hb.active, hb.range⟩
    | served e hs ha => exact .served (by rw [hp, e]; rfl) ⟨hs.started, hs.served, hs.device⟩ ha

theorem keeps_append (h : atLabel w i (.append b) d) :
    atLabel w i (.first b) (d.join b) ∧ ∀ j, j ≠ i → ∀ m, away w j m d → away w j m (d.join b) := by
  obtain ⟨⟨hbook, hact, hlive⟩, hc⟩ := h
  have hp := pending_join (d := d) (b := b)
  have hbook' := join_book hbook hc
  have hoff (j : ι) (hj : j ≠ i) (c : β) (ho : d.owner c = some j) (hm : c ∉ d.pending) : c ∉ (d.join b).pending := by
    rw [hp]
    intro h'
    rcases mem_append.1 h' with h' | h'
    · exact hm h'
    · exact head_ne hc.owner ho hj (mem_singleton.1 h')
  refine ⟨⟨hbook', hact, ⟨hc.owner, .inl (by rw [hp]; simp)⟩, fun hh => ?_, fun hh hne hi => ?_⟩, fun j hj m hm => ?_⟩
  · -- b is the head only if the queue was empty, and then the disk is idle
    cases hq : d.queue with
    | nil =>
      have he : d.pending = [] := by rw [pending_of_none hact, hq]
      cases hbook.stage with
      | idle hi => exact join_idle.2 hi
      | busy e _ | served e _ _ => rw [he] at e; cases e
    | cons c q =>
      simp only [Driver.join, hq, cons_append, head?_cons, Option.some.injEq] at hh
      exact absurd (by rw [pending_of_none hact, hq, hh]; exact mem_cons_self) hc.off
  · refine hlive (fun hq => hh ?_) (join_idle.1 hi)
    simp [Driver.join, hq]
  · have hsp : Spares w j d (d.join b) := by
      refine ⟨fun c h => ⟨h.owner, hoff j hj c h.owner h.off, h.synced⟩, fun c h => ⟨h.1, ?_⟩, id⟩
      rcases h.2 with h' | h'
      · exact .inl (by rw [hp]; exact mem_append_left _ h')
      · exact .inr ⟨hoff j hj c h.1 h'.off, h'.synced, h'.result⟩
    exact spares_away hsp hbook' hm

/-- idestart on the head of the queue, with the disk idle -/
theorem start_inv (hb : Book w d) (ha : d.active = none) (hh : d.queue.head? = some b) (hi : Idle d)
    (hr : (d.buf b).blockno < FSSIZE) :
    Inv w { d with device := .busy b (d.buf b), started := d.started ++ [d.request b] } := by
  obtain ⟨rest, hq⟩ : ∃ rest, d.queue = b :: rest := by
    cases hq : d.queue with
    | nil => simp [hq] at hh
    | cons c q =>
      simp only [hq, head?_cons, Option.some.injEq] at hh
      exact ⟨q, by rw [hh]⟩
  refine ⟨⟨hb.log, hb.nodup, hb.owned, hb.unsynced, hb.rest, hb.disk, hb.fine, ?_⟩, ha, fun _ h => ?_⟩
  · refine .busy (b := b) (p := rest) ?_ ⟨?_, hi.served, rfl, ha, hr⟩
    · show d.pending = b :: rest
      rw [pending_of_none ha, hq]
    · show d.started ++ [d.request b] = d.completed ++ [d.request b]
      rw [hi.started]
  · obtain ⟨_, e⟩ := h.device
    cases e

/-- idestart as the code calls it -/
theorem keeps_start (l l' : Label β Block) (hb : Book w d) (ha : d.active = none) (hh : d.queue.head? = some b)
    (hi : Idle d) : (startAt l b l' d = (d, .panicked)) ∨ Inv w (startAt l b l' d).1 ∧ (startAt l b l' d).2 = l' ∧
      (startAt l b l' d).1 = { d with device := .busy b (d.buf b), started := d.started ++ [d.request b] } := by
  unfold startAt
  split_ifs with hr
  · exact .inl rfl
  · obtain ⟨_, e⟩ := hi.device
    simp only [idestart, e]
    exact .inr ⟨start_inv hb ha hh hi (by omega), trivial, trivial⟩

theorem spares_start (hi : Idle d) (j : ι) :
    Spares w j d { d with device := .busy b (d.buf b), started := d.started ++ [d.request b] } where
  called _ h := ⟨h.owner, h.off, h.synced⟩
  waits _ h := ⟨h.1, h.2.imp id fun hd => ⟨hd.off, hd.synced, hd.result⟩⟩
  taken h := absurd h (idle_not_taken hi)

theorem keeps_startAt {l l' : Label β Block} (hl : held l') (hb : Book w d) (ha : d.active = none)
    (hh : d.queue.head? = some b) (hi : Idle d)
    (hnext : Inv w { d with device := .busy b (d.buf b), started := d.started ++ [d.request b] } →
      atLabel w i l' { d with device := .busy b (d.buf b), started := d.started ++ [d.request b] }) :
    held (startAt l b l' d).2 ∧ atLabel w i (startAt l b l' d).2 (startAt l b l' d).1 ∧
      ∀ j, j ≠ i → ∀ m, away w j m d → away w j m (startAt l b l' d).1 := by
  rcases keeps_start l l' hb ha hh hi with e | ⟨hinv, e2, e1⟩
  · rw [e]
    exact ⟨trivial, hb, fun _ _ _ h => h⟩
  · rw [e1] at hinv
    rw [e1, e2]
    exact ⟨hl, hnext hinv, fun j _ m hm => spares_away (spares_start hi j) hinv.book hm⟩

theorem keeps_done (h : atLabel w i (.done b) d) :
    Inv w { d with owner := update d.owner b none } ∧
      ∀ j, j ≠ i → ∀ m, away w j m d → away w j m { d with owner := update d.owner b none } := by
  obtain ⟨⟨hb, hact, hlive⟩, ho, hd⟩ := h
  have hbook : Book w { d with owner := update d.owner b none } := by
    refine ⟨hb.log, hb.nodup, fun c hm => ?_, hb.unsynced, fun c hc => ?_, hb.disk, hb.fine, ?_⟩
    · have hne : c ≠ b := fun e => hd.off (e ▸ hm)
      simpa [hne] using hb.owned c hm
    · by_cases e : c = b
      · rw [e]; exact hd.result
      · exact hb.rest c (by simpa [e] using hc)
    · cases hb.stage with
      | idle h => exact .idle ⟨h.started, h.served, h.device⟩
      | busy e h => exact .busy e ⟨h.started, h.served, h.device, h.active, h.range⟩
      | served e h ha => exact .served e ⟨h.started, h.served, h.device⟩ ha
  refine ⟨⟨hbook, hact, fun hne hi => hlive hne ⟨hi.started, hi.served, hi.device⟩⟩, fun j hj m hm => ?_⟩
  have keep (c : β) (hc : d.owner c = some j) : update d.owner b none c = some j := by
    rw [update_of_ne (head_ne ho hc hj)]; exact hc
  have hsp : Spares w j d { d with owner := update d.owner b none } :=
    ⟨fun c h => ⟨keep c h.owner, h.off, h.synced⟩,
      fun c h => ⟨keep c h.1, h.2.imp id fun hd => ⟨hd.off, hd.synced, hd.result⟩⟩, id⟩
  exact spares_away hsp hbook hm

/-! ### ideintr -/

/-- the handler finds the request whose interrupt it runs for at the head of the queue -/
theorem taken_head (h : Inv w d) (ht : Taken i d) :
    ∃ b q, d.queue = b :: q ∧ Served d b (.taken i) := by
  obtain ⟨_, e⟩ := ht
  cases h.book.stage with
  | idle hi => obtain ⟨_, e'⟩ := hi.device; rw [e] at e'; cases e'
  | busy hp hb => have e' := hb.device; rw [e] at e'; cases e'
  | served hp hs ha =>
    obtain ⟨_, e', -⟩ := hs.device
    rw [e] at e'
    cases e'
    exact ⟨_, _, by rw [← pending_of_none h.active]; exact hp, hs⟩

def Driver.popped (d : Driver ι β Block) (b : β) (q : List β) : Driver ι β Block :=
  { d.handled with queue := q, active := some b }

theorem keeps_pop {q : List β} (h : Inv w d) (hq : d.queue = b :: q) (hs : Served d b (.taken i)) :
    atLabel w i (.insl b) (d.popped b q) ∧ ∀ j, j ≠ i → ∀ m, away w j m d → away w j m (d.popped b q) := by
  obtain ⟨sector, e, hread⟩ := hs.device
  have hpop : d.popped b q = { d with device := .ready sector .none, queue := q, active := some b } := by
    simp [Driver.popped, Driver.handled, e]
  have hp : (d.popped b q).pending = d.pending := by
    rw [hpop, pending_of_none h.active, hq]; rfl
  have hserved : Served (d.popped b q) b .none := by
    rw [hpop]
    exact ⟨hs.started, hs.served, sector, rfl, hread⟩
  have hbook : Book w (d.popped b q) := by
    have hb := h.book
    refine ⟨?_, by rw [hp]; exact hb.nodup, ?_, ?_, ?_, ?_, ?_, .served (b := b) (p := q) ?_ hserved (absurd rfl)⟩
    · rw [hp, hpop]; exact hb.log
    · rw [hp, hpop]; exact hb.owned
    · rw [hp, hpop]; exact hb.unsynced
    · rw [hpop]; exact hb.rest
    · rw [hpop]; exact hb.disk
    · rw [hpop]; exact hb.fine
    · rw [hp, pending_of_none h.active, hq]
  refine ⟨⟨hbook, by rw [hpop], hserved⟩, fun j hj m hm => ?_⟩
  refine spares_away (d := d) ⟨fun c h => ?_, fun c h => ?_, fun ht => ?_⟩ hbook hm
  · exact ⟨by rw [hpop]; exact h.owner, by rw [hp]; exact h.off, by rw [hpop]; exact h.synced⟩
  · refine ⟨by rw [hpop]; exact h.1, h.2.imp (fun h' => by rwa [hp]) fun hd => ⟨by rw [hp]; exact hd.off, ?_, ?_⟩⟩
    · rw [hpop]; exact hd.synced
    · rw [hpop]; exact hd.result
  · obtain ⟨_, e'⟩ := ht
    rw [e] at e'
    cases e'
    exact absurd rfl hj

/-- what ideintr leaves in the buffer is what the request alone would -/
theorem finish_result (hb : Book w d) (hs : Served d b .none) :
    ∃ data, transferred d b = some data ∧ ({ d.buf b with data := data, valid := true, dirty := false } : Buf Block) =
      (transfer (replay w d.completed) (d.request b)).buf b := by
  obtain ⟨sector, e, hread⟩ := hs.device
  have hdisk : d.disk = setBlock (replay w d.completed).disk (d.buf b) := by
    rw [hb.disk, hs.served, replay_append]; rfl
  by_cases hd : (d.buf b).dirty = true
  · exact ⟨(d.buf b).data, by simp [transferred, hd], by simp [transfer, Driver.request, hd]⟩
  · have hd' : (d.buf b).dirty = false := by simpa using hd
    refine ⟨sector, by simp [transferred, hd', e], ?_⟩
    have hsec := hread hd'
    rw [hdisk] at hsec
    simp only [setBlock, hd', Bool.false_eq_true, if_false] at hsec
    simp [transfer, Driver.request, hd', hsec]

theorem keeps_insl {data : Block} (h : atLabel w i (.insl b) d)
    (hres : ({ d.buf b with data := data, valid := true, dirty := false } : Buf Block) =
      (transfer (replay w d.completed) (d.request b)).buf b) :
    atLabel w i (.wake b) (finish d b data) ∧ ∀ j, j ≠ i → ∀ m, away w j m d → away w j m (finish d b data) := by
  obtain ⟨hb, hact, hs⟩ := h
  have hp : d.pending = b :: d.queue := by simp [Driver.pending, hact]
  have hp' : (finish d b data).pending = d.queue := by simp [Driver.pending, finish]
  have hnd : b ∉ d.queue := by
    have := hb.nodup
    rw [hp] at this
    exact (nodup_cons.1 this).1
  have hbuf {c : β} (hc : c ≠ b) : (finish d b data).buf c = d.buf c := by simp [finish, hc]
  have hrep {c : β} (hc : c ≠ b) : (replay w (finish d b data).completed).buf c = (replay w d.completed).buf c := by
    simp [finish, transfer, Driver.request, hc]
  have hne {c : β} (hc : c ∈ d.queue) : c ≠ b := fun e => hnd (e ▸ hc)
  have hmem {c : β} (hc : c ∈ d.queue) : c ∈ d.pending := by rw [hp]; exact mem_cons_of_mem b hc
  have hidle : Idle (finish d b data) := by
    obtain ⟨sector, e, -⟩ := hs.device
    exact ⟨hs.started, hs.served, sector, e⟩
  have hbook : Book w (finish d b data) := by
    refine ⟨?_, ?_, fun c hc => ?_, fun c hc => ?_, fun c hc => ?_, hb.disk, hb.fine, .idle hidle⟩
    · have hmap : d.queue.map (finish d b data).request = d.queue.map d.request :=
        map_congr_left fun c hc => by simp [Driver.request, hbuf (hne hc)]
      rw [hp', hmap]
      show d.appended = (d.completed ++ [d.request b]) ++ d.queue.map d.request
      rw [hb.log, hp]
      simp
    · have := hb.nodup
      rw [hp] at this
      rw [hp']
      exact (nodup_cons.1 this).2
    · rw [hp'] at hc
      exact hb.owned c (hmem hc)
    · rw [hp'] at hc
      rw [hbuf (hne hc)]
      exact hb.unsynced c (hmem hc)
    · have hcb : c ≠ b := by
        rintro rfl
        exact hb.owned c (by rw [hp]; exact mem_cons_self) hc
      rw [hbuf hcb, hrep hcb]
      exact hb.rest c hc
  have hdone {c : β} (hd : Done w c d) : Done w c (finish d b data) := by
    have hcb : c ≠ b := by
      rintro rfl
      exact hd.off (by rw [hp]; exact mem_cons_self)
    refine ⟨fun hc => hd.off ?_, by rw [hbuf hcb]; exact hd.synced, by rw [hbuf hcb, hrep hcb]; exact hd.result⟩
    rw [hp'] at hc
    exact hmem hc
  have hsp (j : ι) : Spares w j d (finish d b data) := by
    refine ⟨fun c h => ?_, fun c h => ⟨h.1, ?_⟩, fun ht => ?_⟩
    · have hcb : c ≠ b := by
        rintro rfl
        exact h.off (by rw [hp]; exact mem_cons_self)
      refine ⟨h.owner, fun hc => h.off ?_, by rw [hbuf hcb]; exact h.synced⟩
      rw [hp'] at hc
      exact hmem hc
    · rcases h.2 with hc | hd
      · rw [hp] at hc
        rcases mem_cons.1 hc with rfl | hc
        · -- its own request is the one that was finished
          refine .inr ⟨by rw [hp']; exact hnd, by simp [finish, Buf.synced], ?_⟩
          simp only [finish, update_self, replay_append]
          exact hres
        · exact .inl (by rw [hp']; exact hc)
      · exact .inr (hdone hd)
    · obtain ⟨_, e⟩ := ht
      obtain ⟨_, e', -⟩ := hs.device
      rw [e] at e'
      cases e'
  exact ⟨⟨hbook, rfl, hidle⟩, fun j _ m hm => spares_away (hsp j) hbook hm⟩

end Ide

end Xv6
