import Mathlib

/-!
# A stack closed through handles

Scopes are opened one inside the other, and each opening hands out a handle. Closing is done with
a handle, in any order, and pops only if that handle's frame is on top; otherwise the frame stays,
and no handle refers to it any more — it is **stale**.

Handles are handed out in increasing order, so a stack's handles decrease from the top down
(`Ordered`). The one fact about order is `stale_release`: closing leaves the stack without stale
frames exactly when it closes the newest open handle, and a stale frame never goes away. That is
why a stack closed through handles drains only if it is closed like a stack.
-/

namespace Lib

/-- An open scope: what it is, and the handle that closes it; `none` once that was closed from
    below the top. -/
structure Frame (α : Type) where
  item : α
  handle : Option Nat
deriving DecidableEq, Repr

namespace Frame

variable {α : Type}

def forget (h : Nat) (f : Frame α) : Frame α :=
  if f.handle = some h then { f with handle := none } else f

@[simp] theorem forget_item (h : Nat) (f : Frame α) : (f.forget h).item = f.item := by
  unfold forget; split <;> rfl

theorem forget_handle (h : Nat) (f : Frame α) :
    (f.forget h).handle = if f.handle = some h then none else f.handle := by
  unfold forget; split <;> rfl

end Frame

namespace Frames

variable {α : Type} {h h' : Nat} {a : α} {f : Frame α} {fs : List (Frame α)} {as : List α}

/-- The scopes open, innermost first. -/
def items (fs : List (Frame α)) : List α := fs.map (·.item)

/-- The open handles, newest first. -/
def handles (fs : List (Frame α)) : List Nat := fs.filterMap (·.handle)

def push (a : α) (h : Nat) (fs : List (Frame α)) : List (Frame α) := ⟨a, some h⟩ :: fs

/-- Close `h`: pop its frame from the top, or leave it stale. -/
def release (h : Nat) : List (Frame α) → List (Frame α)
  | [] => []
  | f :: fs => if f.handle = some h then fs else (f :: fs).map (·.forget h)

/-- The scopes from the frame of `h` outwards. -/
def trail (h : Nat) : List (Frame α) → Option (List α)
  | [] => none
  | f :: fs => if f.handle = some h then some (items (f :: fs)) else trail h fs

def Ordered (fs : List (Frame α)) : Prop := (handles fs).Pairwise (· > ·)

/-- Some frame lost its handle. -/
def Stale (fs : List (Frame α)) : Prop := ∃ f ∈ fs, f.handle = none

@[simp] theorem items_cons : items (f :: fs) = f.item :: items fs := rfl
theorem items_forget : items (fs.map (·.forget h)) = items fs := by
  simp [items, Function.comp_def]

theorem handles_forget : handles (fs.map (·.forget h)) = (handles fs).filter (· ≠ h) := by
  induction fs with
  | nil => rfl
  | cons f fs ih =>
    unfold handles at ih ⊢
    rw [List.map_cons, List.filterMap_cons, List.filterMap_cons, ih, Frame.forget_handle]
    cases hf : f.handle with
    | none => simp
    | some k =>
      by_cases hk : k = h
      · simp [hk]
      · simp [hk]

/-! ## Which scope a handle refers to -/

theorem trail_push : trail h' (push a h fs) =
    if h = h' then some (a :: items fs) else trail h' fs := by
  simp [push, trail]

/-- A trail runs from one of the frames to the bottom. -/
theorem trail_suffix (ht : trail h fs = some as) : as <:+ items fs ∧ as ≠ [] := by
  induction fs with
  | nil => exact absurd ht (by simp [trail])
  | cons f fs ih =>
    rw [trail] at ht
    split at ht
    · obtain rfl := Option.some.inj ht
      exact ⟨List.suffix_rfl, by simp⟩
    · obtain ⟨hs, hne⟩ := ih ht
      exact ⟨hs.trans (List.suffix_cons _ _), hne⟩

theorem trail_eq_none_iff : trail h fs = none ↔ h ∉ handles fs := by
  induction fs with
  | nil => simp [trail, handles]
  | cons f fs ih =>
    unfold handles at ih ⊢
    rw [trail, List.filterMap_cons]
    cases hf : f.handle with
    | none => simpa using ih
    | some k =>
      by_cases hk : k = h
      · simp [hk]
      · simp only [Option.some.injEq, hk, if_false, ih, List.mem_cons, Ne.symm hk, false_or]

theorem exists_trail (hh : h ∈ handles fs) : ∃ as, trail h fs = some as :=
  Option.ne_none_iff_exists'.mp fun hn => trail_eq_none_iff.mp hn hh

/-- The trail of `h` is the whole stack exactly when its frame is on top. -/
theorem trail_eq_items_iff (ht : trail h fs = some as) :
    as = items fs ↔ ∃ f rest, fs = f :: rest ∧ f.handle = some h := by
  cases fs with
  | nil => exact absurd ht (by simp [trail])
  | cons f fs =>
    rw [trail] at ht
    split at ht
    · next hf =>
      obtain rfl := Option.some.inj ht
      exact ⟨fun _ => ⟨f, fs, rfl, hf⟩, fun _ => rfl⟩
    · next hf =>
      constructor
      · rintro rfl
        have := (trail_suffix ht).1.length_le
        rw [items_cons, List.length_cons] at this
        omega
      · rintro ⟨g, rest, hcons, hg⟩
        rw [(List.cons.inj hcons).1] at hf
        exact absurd hg hf

/-! ## Closing -/

theorem forget_of_not_mem (hh : h ∉ handles fs) : fs.map (·.forget h) = fs := by
  induction fs with
  | nil => rfl
  | cons f fs ih =>
    unfold handles at ih hh
    rw [List.filterMap_cons] at hh
    cases hf : f.handle with
    | none =>
      rw [hf] at hh
      rw [List.map_cons, ih hh, Frame.forget, if_neg (by rw [hf]; simp)]
    | some k =>
      simp only [hf, List.mem_cons, not_or] at hh
      rw [List.map_cons, ih hh.2, Frame.forget, if_neg (by
        rw [hf]
        exact fun heq => hh.1 (Option.some.inj heq).symm)]

/-- Nothing happens to a stack that has no frame for the handle. -/
theorem release_of_not_mem (hh : h ∉ handles fs) : release h fs = fs := by
  cases fs with
  | nil => rfl
  | cons f fs =>
    have hf : ¬ f.handle = some h := by
      intro hf
      refine hh ?_
      unfold handles
      rw [List.filterMap_cons, hf]
      exact List.mem_cons_self
    rw [release, if_neg hf, forget_of_not_mem hh]

/-- Closing pops one scope or none. -/
theorem items_release [DecidableEq α] (ht : trail h fs = some as) :
    items (release h fs) = if as = items fs then (items fs).tail else items fs := by
  cases fs with
  | nil => exact absurd ht (by simp [trail])
  | cons f fs =>
    rw [release]
    by_cases hf : f.handle = some h
    · rw [if_pos hf, if_pos ((trail_eq_items_iff ht).mpr ⟨f, fs, rfl, hf⟩)]
      rfl
    · rw [if_neg hf, items_forget, if_neg]
      intro heq
      obtain ⟨g, rest, hcons, hg⟩ := (trail_eq_items_iff ht).mp heq
      exact hf ((List.cons.inj hcons).1 ▸ hg)

/-- The other handles keep their scopes. -/
theorem trail_release_of_ne (hne : h' ≠ h) : trail h' (release h fs) = trail h' fs := by
  have hforget : ∀ fs : List (Frame α), trail h' (fs.map (·.forget h)) = trail h' fs := by
    intro fs
    induction fs with
    | nil => rfl
    | cons f fs ih =>
      have hiff : (f.forget h).handle = some h' ↔ f.handle = some h' := by
        rw [Frame.forget_handle]
        split
        · next hf => simp [hf, Ne.symm hne]
        · rfl
      simp only [List.map_cons, trail, hiff, ih, items_cons, Frame.forget_item, items_forget]
  cases fs with
  | nil => rfl
  | cons f fs =>
    rw [release]
    split
    · next hf =>
      rw [trail, if_neg]
      rw [hf]
      exact fun heq => hne (Option.some.inj heq).symm
    · exact hforget _

/-- The handle closed is closed, and no other. -/
theorem handles_release (ho : Ordered fs) :
    handles (release h fs) = (handles fs).filter (· ≠ h) := by
  cases fs with
  | nil => rfl
  | cons f fs =>
    rw [release]
    split
    · next hf =>
      unfold Ordered handles at ho
      rw [List.filterMap_cons, hf] at ho
      unfold handles
      rw [List.filterMap_cons, hf, List.filter_cons_of_neg (by simp), List.filter_eq_self.mpr]
      intro k hk
      have := (List.pairwise_cons.mp ho).1 k hk
      simpa using Nat.ne_of_lt this
    · exact handles_forget

/-- Closing an open handle leaves fewer. -/
theorem length_handles_release (hh : h ∈ handles fs) :
    (handles (release h fs)).length < (handles fs).length := by
  cases fs with
  | nil => exact absurd hh (by simp [handles])
  | cons f fs =>
    rw [release]
    split
    · next hf =>
      unfold handles
      rw [List.filterMap_cons, hf, List.length_cons]
      exact Nat.lt_succ_self _
    · rw [handles_forget, List.length_filter_lt_length_iff_exists]
      exact ⟨h, hh, by simp⟩

theorem Ordered.push (ho : Ordered fs) (hh : ∀ k ∈ handles fs, k < h) : Ordered (push a h fs) :=
  List.pairwise_cons.mpr ⟨hh, ho⟩

theorem Ordered.release (ho : Ordered fs) : Ordered (release h fs) := by
  show (handles (Frames.release h fs)).Pairwise (· > ·)
  rw [handles_release ho]
  exact List.Pairwise.filter _ ho

theorem trail_release_self (ho : Ordered fs) : trail h (release h fs) = none := by
  rw [trail_eq_none_iff, handles_release ho]
  simp

/-! ## Stale frames -/

@[simp] theorem not_stale_nil : ¬ Stale ([] : List (Frame α)) := by
  simp [Stale]

theorem stale_push : Stale (push a h fs) ↔ Stale fs := by
  simp [Stale, push]

/-- **Closing the newest open handle is the only closing that leaves nothing stale**, and what is
    stale stays. -/
theorem stale_release (ho : Ordered fs) (hh : h ∈ handles fs) :
    Stale (release h fs) ↔ Stale fs ∨ ∃ k ∈ handles fs, h < k := by
  cases fs with
  | nil => exact absurd hh (by simp [handles])
  | cons f fs =>
    rw [release]
    split
    · -- the top: it was not stale, and no open handle is newer
      next hf =>
      have hold : ∀ k ∈ handles fs, k < h := by
        unfold Ordered handles at ho
        rw [List.filterMap_cons, hf] at ho
        exact (List.pairwise_cons.mp ho).1
      constructor
      · rintro ⟨g, hg, hn⟩
        exact Or.inl ⟨g, List.mem_cons_of_mem _ hg, hn⟩
      · rintro (⟨g, hg, hn⟩ | ⟨k, hk, hlt⟩)
        · rcases List.mem_cons.mp hg with rfl | hg
          · rw [hf] at hn
            exact absurd hn (by simp)
          · exact ⟨g, hg, hn⟩
        · unfold handles at hk
          rw [List.filterMap_cons, hf] at hk
          rcases List.mem_cons.mp hk with rfl | hk
          · omega
          · have := hold k hk
            omega
    · -- below the top: its frame is stale now, and the top is stale or newer
      next hf =>
      refine iff_of_true ?_ ?_
      · obtain ⟨g, hg, hgh⟩ := List.mem_filterMap.mp hh
        exact ⟨g.forget h, List.mem_map.mpr ⟨g, hg, rfl⟩, by rw [Frame.forget_handle, if_pos hgh]⟩
      · cases hk : f.handle with
        | none => exact Or.inl ⟨f, List.mem_cons_self, hk⟩
        | some k =>
          unfold Ordered handles at ho
          unfold handles at hh
          rw [List.filterMap_cons, hk] at ho hh
          refine Or.inr ⟨k, ?_, ?_⟩
          · unfold handles
            rw [List.filterMap_cons, hk]
            exact List.mem_cons_self
          · rcases List.mem_cons.mp hh with rfl | hh
            · exact absurd hk hf
            · exact (List.pairwise_cons.mp ho).1 h hh

/-- Without open handles, what is on the stack is stale. -/
theorem eq_nil_iff_not_stale (hh : handles fs = []) : fs = [] ↔ ¬ Stale fs := by
  constructor
  · rintro rfl
    exact not_stale_nil
  · intro hs
    refine List.eq_nil_iff_forall_not_mem.mpr fun f hf => ?_
    cases hk : f.handle with
    | none => exact hs ⟨f, hf, hk⟩
    | some k =>
      have hmem : k ∈ handles fs := List.mem_filterMap.mpr ⟨f, hf, hk⟩
      rw [hh] at hmem
      exact absurd hmem (by simp)

end Frames
end Lib
