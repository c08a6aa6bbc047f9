import Mathlib

/-!
# Walks along labelled edges

A data structure made of cells that point at each other through labelled pointers is, read
from one of its cells, a partial function `next : V → K → Option V`. A *path* is the list of
labels from that cell, **last label first**: the paths of a stack discipline grow and shrink
at their head, and so do the proofs about them.

`Tidy` is the shape of a tree: no cell is reached along two paths. Nothing else about trees is
needed here — disjoint siblings, one parent per cell, no cycle are all instances of it.

`Spells next r π s` says that the stack `s` (top first) is the trail of `π`: the cells a walk
along `π` visits, `r` at the bottom.
-/

namespace Lib

variable {V K : Type}

/-- Follow `π` from `r`, last label first. -/
def walk (next : V → K → Option V) (r : V) : List K → Option V
  | [] => some r
  | k :: π => (walk next r π).bind (next · k)

/-- `v` is reached from `r`. -/
def Reaches (next : V → K → Option V) (r v : V) : Prop := ∃ π, walk next r π = some v

/-- **Tree shape**: no vertex is reached along two paths. -/
def Tidy (next : V → K → Option V) (r : V) : Prop :=
  ∀ π π' v, walk next r π = some v → walk next r π' = some v → π = π'

section Basics

variable {next : V → K → Option V} {r v : V} {k : K} {π : List K}

@[simp] theorem walk_nil : walk next r [] = some r := rfl

@[simp] theorem walk_cons : walk next r (k :: π) = (walk next r π).bind (next · k) := rfl

/-- A walk along an appended path is a walk from where the inner one ended. -/
theorem walk_append (a b : List K) :
    walk next r (a ++ b) = (walk next r b).bind (fun u => walk next u a) := by
  induction a with
  | nil => simp
  | cons k a ih =>
    rw [List.cons_append, walk_cons, ih]
    cases walk next r b <;> rfl

theorem walk_cons_eq_some {c : V} :
    walk next r (k :: π) = some c ↔ ∃ u, walk next r π = some u ∧ next u k = some c := by
  rw [walk_cons, Option.bind_eq_some_iff]

theorem walk_concat_eq_some :
    walk next r (π ++ [k]) = some v ↔ ∃ c, next r k = some c ∧ walk next c π = some v := by
  rw [walk_append, walk_cons, walk_nil, Option.bind_some, Option.bind_eq_some_iff]

theorem Reaches.refl : Reaches next r r := ⟨[], rfl⟩

theorem Reaches.trans {u : V} (h : Reaches next r v) (h' : Reaches next v u) :
    Reaches next r u := by
  obtain ⟨π, hπ⟩ := h
  obtain ⟨π', hπ'⟩ := h'
  exact ⟨π' ++ π, by rw [walk_append, hπ]; exact hπ'⟩

theorem Reaches.edge {u : V} (h : Reaches next r v) (he : next v k = some u) :
    Reaches next r u := by
  obtain ⟨π, hπ⟩ := h
  exact ⟨k :: π, walk_cons_eq_some.mpr ⟨v, hπ, he⟩⟩

/-- What is reached from `r` is `r` itself or is reached from one of its children. -/
theorem reaches_iff : Reaches next r v ↔ v = r ∨ ∃ k c, next r k = some c ∧ Reaches next c v := by
  constructor
  · rintro ⟨π, hπ⟩
    rcases List.eq_nil_or_concat π with rfl | ⟨π', k, rfl⟩
    · exact Or.inl (Option.some.inj hπ).symm
    · rw [List.concat_eq_append, walk_append] at hπ
      obtain ⟨c, hc, hv⟩ := Option.bind_eq_some_iff.mp hπ
      exact Or.inr ⟨k, c, by simpa using hc, π', hv⟩
  · rintro (rfl | ⟨k, c, hc, hv⟩)
    · exact .refl
    · exact (Reaches.refl.edge hc).trans hv

end Basics

/-! ## Two edge relations that agree where it matters -/

section Congr

variable {next next' : V → K → Option V} {r : V}

/-- Walks only see the edges of vertices they reach. -/
theorem walk_congr (h : ∀ v, Reaches next r v → ∀ k, next' v k = next v k) (π : List K) :
    walk next' r π = walk next r π := by
  induction π with
  | nil => rfl
  | cons k π ih =>
    rw [walk_cons, walk_cons, ih]
    cases hv : walk next r π with
    | none => rfl
    | some v => exact h v ⟨π, hv⟩ k

theorem reaches_congr (h : ∀ v, Reaches next r v → ∀ k, next' v k = next v k) (v : V) :
    Reaches next' r v ↔ Reaches next r v :=
  exists_congr fun π => by rw [walk_congr h π]

theorem Tidy.congr (ht : Tidy next r) (h : ∀ v, Reaches next r v → ∀ k, next' v k = next v k) :
    Tidy next' r := by
  intro π π' v hπ hπ'
  rw [walk_congr h] at hπ hπ'
  exact ht π π' v hπ hπ'

end Congr

/-! ## Tree shape -/

section Tidy

variable {next : V → K → Option V} {r v a b w : V} {k k' : K} {π : List K}

/-- A subtree of a tree is a tree. -/
theorem Tidy.sub (ht : Tidy next r) (hv : Reaches next r v) : Tidy next v := by
  obtain ⟨ρ, hρ⟩ := hv
  intro π π' u hu hu'
  have h : ∀ σ, walk next v σ = some u → walk next r (σ ++ ρ) = some u := by
    intro σ hσ
    rw [walk_append, hρ]
    exact hσ
  exact List.append_cancel_right (ht _ _ u (h π hu) (h π' hu'))

/-- The subtrees of two siblings share nothing. -/
theorem Tidy.sibling (ht : Tidy next v) (ha : next v k = some a) (hb : next v k' = some b)
    (hw : Reaches next a w) (hw' : Reaches next b w) : k = k' := by
  obtain ⟨π, hπ⟩ := hw
  obtain ⟨π', hπ'⟩ := hw'
  have h : π ++ [k] = π' ++ [k'] := by
    refine ht _ _ w ?_ ?_
    · rw [walk_append, walk_cons, walk_nil, Option.bind_some, ha]
      exact hπ
    · rw [walk_append, walk_cons, walk_nil, Option.bind_some, hb]
      exact hπ'
  simpa using (List.append_inj' h rfl).2

/-- No child's subtree comes back to its parent. -/
theorem Tidy.no_return (ht : Tidy next v) (ha : next v k = some a) : ¬ Reaches next a v := by
  rintro ⟨π, hπ⟩
  have h : π ++ [k] = [] := by
    refine ht _ _ v ?_ rfl
    rw [walk_append, walk_cons, walk_nil, Option.bind_some, ha]
    exact hπ
  simp at h

/-- **One new edge to a new leaf** adds one path and changes no other. -/
theorem walk_addEdge [DecidableEq K] {next' : V → K → Option V} {u c : V} (ht : Tidy next r)
    (hu : walk next r π = some u) (habs : next u k = none) (hnew : ¬ Reaches next r c)
    (hleaf : ∀ j, next c j = none) (hedge : next' u k = some c)
    (hother : ∀ v j, Reaches next r v ∨ v = c → ¬ (v = u ∧ j = k) → next' v j = next v j)
    (σ : List K) : walk next' r σ = if σ = k :: π then some c else walk next r σ := by
  induction σ with
  | nil => simp
  | cons j σ ih =>
    rw [walk_cons, ih]
    by_cases hσ : σ = k :: π
    · -- past the new leaf: it has no edge, and the old walk stops before it
      subst hσ
      have hcu : c ≠ u := fun h => hnew (h ▸ ⟨π, hu⟩)
      rw [if_pos rfl, if_neg (by simp), Option.bind_some,
        hother c j (Or.inr rfl) (fun h => hcu h.1), hleaf, walk_cons, walk_cons, hu,
        Option.bind_some, habs, Option.bind_none]
    · rw [if_neg hσ]
      cases hv : walk next r σ with
      | none =>
        have hne : j :: σ ≠ k :: π := by
          intro h
          rw [(List.cons.inj h).2, hu] at hv
          exact absurd hv (by simp)
        rw [if_neg hne, walk_cons, hv]
        rfl
      | some v =>
        rw [Option.bind_some]
        by_cases hj : v = u ∧ j = k
        · have hσπ : σ = π := ht σ π u (hj.1 ▸ hv) hu
          rw [hj.1, hj.2, hedge, hσπ, if_pos rfl]
        · have hne : j :: σ ≠ k :: π := by
            intro h
            have hσπ := (List.cons.inj h).2
            rw [hσπ] at hv
            exact hj ⟨Option.some.inj (hv.symm.trans hu), (List.cons.inj h).1⟩
          rw [hother v j (Or.inl ⟨σ, hv⟩) hj, if_neg hne, walk_cons, hv, Option.bind_some]

/-- …so the tree stays a tree. -/
theorem Tidy.addEdge [DecidableEq K] {next' : V → K → Option V} {c : V} (ht : Tidy next r)
    (hnew : ¬ Reaches next r c)
    (hwalk : ∀ σ, walk next' r σ = if σ = k :: π then some c else walk next r σ) :
    Tidy next' r := by
  intro σ σ' v hσ hσ'
  rw [hwalk] at hσ hσ'
  by_cases h : σ = k :: π <;> by_cases h' : σ' = k :: π
  · rw [h, h']
  · rw [if_pos h] at hσ
    rw [if_neg h'] at hσ'
    exact absurd ⟨σ', (Option.some.inj hσ) ▸ hσ'⟩ hnew
  · rw [if_neg h] at hσ
    rw [if_pos h'] at hσ'
    exact absurd ⟨σ, (Option.some.inj hσ') ▸ hσ⟩ hnew
  · rw [if_neg h] at hσ
    rw [if_neg h'] at hσ'
    exact ht σ σ' v hσ hσ'

end Tidy

/-! ## The trail of a path -/

/-- `s` (top first) lists the vertices the walk along `π` visits, `r` last. -/
def Spells (next : V → K → Option V) (r : V) : List K → List V → Prop
  | [], s => s = [r]
  | k :: π, s => ∃ v s', s = v :: s' ∧ walk next r (k :: π) = some v ∧ Spells next r π s'

section Spells

variable {next next' : V → K → Option V} {r v : V} {k : K} {π : List K} {s : List V}

theorem Spells.congr (h : Spells next r π s)
    (hw : ∀ σ, σ <:+ π → walk next' r σ = walk next r σ) : Spells next' r π s := by
  induction π generalizing s with
  | nil => exact h
  | cons k π ih =>
    obtain ⟨v, s', rfl, hv, hs⟩ := h
    exact ⟨v, s', rfl, (hw _ List.suffix_rfl).trans hv,
      ih hs fun σ hσ => hw σ (hσ.trans (List.suffix_cons k π))⟩

/-- The top of the trail is where the path leads. -/
theorem Spells.head (h : Spells next r π s) : ∃ v s', s = v :: s' ∧ walk next r π = some v := by
  cases π with
  | nil => exact ⟨r, [], h, rfl⟩
  | cons k π =>
    obtain ⟨v, s', rfl, hv, -⟩ := h
    exact ⟨v, s', rfl, hv⟩

theorem Spells.ne_nil (h : Spells next r π s) : s ≠ [] := by
  obtain ⟨v, s', rfl, -⟩ := h.head
  simp

/-- The root is at the bottom. -/
theorem Spells.getLast? (h : Spells next r π s) : s.getLast? = some r := by
  induction π generalizing s with
  | nil => rw [h]; rfl
  | cons k π ih =>
    obtain ⟨v, s', rfl, -, hs⟩ := h
    rw [List.getLast?_cons, ih hs]
    rfl

theorem Spells.length (h : Spells next r π s) : s.length = π.length + 1 := by
  induction π generalizing s with
  | nil => rw [h]; rfl
  | cons k π ih =>
    obtain ⟨v, s', rfl, -, hs⟩ := h
    rw [List.length_cons, ih hs, List.length_cons]

/-- A vertex is on the trail exactly when some tail of the path leads to it. -/
theorem Spells.mem_iff (h : Spells next r π s) :
    v ∈ s ↔ ∃ σ, σ <:+ π ∧ walk next r σ = some v := by
  induction π generalizing s with
  | nil =>
    rw [h, List.mem_singleton]
    constructor
    · rintro rfl
      exact ⟨[], List.suffix_rfl, rfl⟩
    · rintro ⟨σ, hσ, hw⟩
      rw [List.suffix_nil.mp hσ] at hw
      exact (Option.some.inj hw).symm
  | cons k π ih =>
    obtain ⟨u, s', rfl, hu, hs⟩ := h
    rw [List.mem_cons, ih hs]
    constructor
    · rintro (rfl | ⟨σ, hσ, hw⟩)
      · exact ⟨k :: π, List.suffix_rfl, hu⟩
      · exact ⟨σ, hσ.trans (List.suffix_cons k π), hw⟩
    · rintro ⟨σ, hσ, hw⟩
      rcases List.suffix_cons_iff.mp hσ with rfl | hσ
      · exact Or.inl (Option.some.inj (hw.symm.trans hu))
      · exact Or.inr ⟨σ, hσ, hw⟩

/-- A trail through a tree visits no vertex twice. -/
theorem Spells.nodup (h : Spells next r π s) (ht : Tidy next r) : s.Nodup := by
  induction π generalizing s with
  | nil => rw [h]; simp
  | cons k π ih =>
    obtain ⟨u, s', rfl, hu, hs⟩ := h
    refine List.nodup_cons.mpr ⟨fun hmem => ?_, ih hs⟩
    obtain ⟨σ, hσ, hw⟩ := hs.mem_iff.mp hmem
    have hlen := congrArg List.length (ht _ _ u hu hw)
    have := hσ.length_le
    rw [List.length_cons] at hlen
    omega

/-- A path that leads somewhere has a trail. -/
theorem exists_spells (h : walk next r π = some v) : ∃ s, Spells next r π s := by
  induction π generalizing v with
  | nil => exact ⟨[r], rfl⟩
  | cons k π ih =>
    obtain ⟨u, hu, -⟩ := walk_cons_eq_some.mp h
    obtain ⟨s, hs⟩ := ih hu
    exact ⟨v :: s, v, s, rfl, h, hs⟩

/-- In a tree of vertices below `n`, no path has `n` labels: its trail would repeat one. -/
theorem Tidy.length_lt {next : Nat → K → Option Nat} {r v n : Nat} (ht : Tidy next r)
    (hn : ∀ u, Reaches next r u → u < n) (h : walk next r π = some v) : π.length < n := by
  obtain ⟨s, hs⟩ := exists_spells h
  have hsub : s ⊆ List.range n := by
    intro u hu
    obtain ⟨σ, -, hσ⟩ := hs.mem_iff.mp hu
    exact List.mem_range.mpr (hn u ⟨σ, hσ⟩)
  have hle := ((hs.nodup ht).subperm hsub).length_le
  rw [hs.length, List.length_range] at hle
  exact hle

end Spells
end Lib
