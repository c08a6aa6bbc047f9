import Mathlib

/-!
# The paths of a tree in the order of a walk

A walk that visits a vertex before its children, and these in the order of their labels, meets the
paths of a tree in one order: `Before`. Paths are lists of labels, **last label first**, so this is
the lexicographic order of the reversed paths.

`Listing P paths` says that `paths` are the paths with `P`, each once and in that order. There is
at most one such list (`Listing.unique`), so what is printed along it is determined by `P`.
-/

namespace Lib

variable {K β : Type} [Ord K]

/-- The walk meets `π` before `σ`. -/
def Before (π σ : List K) : Prop := compare π.reverse σ.reverse = .lt

/-- The paths with `P`, in the order of the walk. -/
structure Listing (P : List K → Prop) (paths : List (List K)) : Prop where
  mem : ∀ π, π ∈ paths ↔ P π
  sorted : paths.Pairwise Before

section Order

variable {τ π σ : List K} {k k' : K}

/-- A common beginning decides nothing. -/
theorem compare_append_left [Std.ReflOrd K] (a b c : List K) :
    compare (a ++ b) (a ++ c) = compare b c := by
  induction a with
  | nil => rfl
  | cons x a ih =>
    have hx : compare x x = .eq := Std.ReflCmp.compare_self
    rw [List.cons_append, List.cons_append, List.compare_cons_cons, hx, ih]
    rfl

/-- A vertex comes before what is below it. -/
theorem Before.below [Std.ReflOrd K] (h : (k :: τ) <:+ π) : Before τ π := by
  obtain ⟨ρ, rfl⟩ := h
  unfold Before
  have hsplit : (ρ ++ k :: τ).reverse = τ.reverse ++ k :: ρ.reverse := by simp
  rw [hsplit]
  nth_rewrite 1 [← List.append_nil τ.reverse]
  rw [compare_append_left]
  rfl

/-- What is below one child comes before what is below a later one. -/
theorem Before.fork [Std.ReflOrd K] (hk : compare k k' = .lt) (hπ : (k :: τ) <:+ π)
    (hσ : (k' :: τ) <:+ σ) : Before π σ := by
  obtain ⟨ρ, rfl⟩ := hπ
  obtain ⟨ρ', rfl⟩ := hσ
  unfold Before
  have hsplit : ∀ (ρ : List K) (k : K), (ρ ++ k :: τ).reverse = τ.reverse ++ k :: ρ.reverse := by
    intro ρ k
    simp
  rw [hsplit, hsplit, compare_append_left, List.compare_cons_cons, hk]
  rfl

end Order

/-- A list that ascends in a figure of its elements is determined by what is in it. -/
theorem ascending_unique [Std.OrientedOrd K] {f : β → K} {l l' : List β}
    (h : l.Pairwise fun a b => compare (f a) (f b) = .lt)
    (h' : l'.Pairwise fun a b => compare (f a) (f b) = .lt) (hmem : ∀ a, a ∈ l ↔ a ∈ l') :
    l = l' := by
  have hirrefl : Std.Irrefl fun a b : β => compare (f a) (f b) = .lt := by
    refine ⟨fun a hlt => ?_⟩
    have hrefl : compare (f a) (f a) = .eq := Std.ReflCmp.compare_self
    rw [hrefl] at hlt
    cases hlt
  have hantisymm : Std.Antisymm fun a b : β => compare (f a) (f b) = .lt := by
    refine ⟨fun a b hlt hlt' => ?_⟩
    have hswap : compare (f a) (f b) = (compare (f b) (f a)).swap := Std.OrientedCmp.eq_swap
    rw [hlt, hlt'] at hswap
    cases hswap
  exact h.eq_of_mem_iff h' hmem

/-- **There is one listing.** -/
theorem Listing.unique [Std.OrientedOrd K] {P : List K → Prop} {paths paths' : List (List K)}
    (h : Listing P paths) (h' : Listing P paths') : paths = paths' :=
  ascending_unique (f := List.reverse) h.sorted h'.sorted fun π =>
    (h.mem π).trans (h'.mem π).symm

/-- **A vertex and the walks below its children**, taken in the order of the labels, are in
    order. -/
theorem sorted_below [Std.ReflOrd K] {τ : List K} {entries : List (K × β)}
    {below : K × β → List (List K)}
    (hentries : entries.Pairwise fun e e' => compare e.1 e'.1 = .lt)
    (hbelow : ∀ e ∈ entries, ∀ π ∈ below e, (e.1 :: τ) <:+ π)
    (hsorted : ∀ e ∈ entries, (below e).Pairwise Before) :
    (τ :: entries.flatMap below).Pairwise Before := by
  rw [List.pairwise_cons, List.pairwise_flatMap]
  refine ⟨fun π hπ => ?_, hsorted, ?_⟩
  · obtain ⟨e, he, hπ⟩ := List.mem_flatMap.mp hπ
    exact .below (hbelow e he π hπ)
  · refine hentries.imp_of_mem fun {e e'} he he' hlt π hπ σ hσ => ?_
    exact .fork hlt (hbelow e he π hπ) (hbelow e' he' σ hσ)

end Lib
