import Mathlib

/-!
# Loops and runs that can fail

A loop of the code and a run of the whole system have the same shape here: `List.foldlM` in
`Except φ`, over the elements visited or the operations performed. The rules below are the ones
every proof about such a fold goes through. Two of them carry an invariant — one for total
correctness, indexed by the part of the list already done, one for partial correctness — and two
compare folds: in lockstep, or with one of them skipping the elements the other's observer
cannot see.
-/

namespace Lib

variable {φ σ τ ε β : Type}

/-! ## One step of a computation that can fail -/

@[simp] theorem ok_bind (a : σ) (f : σ → Except φ β) : (Except.ok a >>= f) = f a := rfl

@[simp] theorem error_bind (e : φ) (f : σ → Except φ β) :
    ((Except.error e : Except φ σ) >>= f) = .error e := rfl

@[simp] theorem pure_eq_ok (a : σ) : (pure a : Except φ σ) = .ok a := rfl

@[simp] theorem map_ok (f : σ → β) (a : σ) : (f <$> (Except.ok a : Except φ σ)) = .ok (f a) := rfl

@[simp] theorem throw_eq_error (e : φ) : (throw e : Except φ σ) = .error e := rfl

/-- A sequence succeeds exactly when both of its halves do. -/
theorem bind_eq_ok {x : Except φ σ} {f : σ → Except φ β} {b : β} :
    (x >>= f) = .ok b ↔ ∃ a, x = .ok a ∧ f a = .ok b := by
  cases x with
  | error e => simp
  | ok a => simp

/-- A sequence fails where its first half does, or its second on what the first gives. -/
theorem bind_eq_error {x : Except φ σ} {f : σ → Except φ β} {e : φ} :
    (x >>= f) = .error e ↔ x = .error e ∨ ∃ a, x = .ok a ∧ f a = .error e := by
  cases x with
  | error e' => simp
  | ok a => simp

theorem toOption_eq_some {x : Except φ σ} {a : σ} : x.toOption = some a ↔ x = .ok a := by
  cases x with
  | error e =>
    refine iff_of_false (fun h => ?_) (fun h => ?_)
    · exact absurd h (by simp [Except.toOption])
    · cases h
  | ok b => simp [Except.toOption]

/-- What can be read off a result was read off a result. -/
theorem ok_of_toOption_bind {x : Except φ σ} {f : σ → Option β} {b : β}
    (h : x.toOption.bind f = some b) : ∃ a, x = .ok a ∧ f a = some b := by
  obtain ⟨a, ha, hb⟩ := Option.bind_eq_some_iff.mp h
  exact ⟨a, toOption_eq_some.mp ha, hb⟩

/-! ## Invariants -/

section Invariants

variable {step : σ → ε → Except φ σ}

theorem foldlM_cons_ok {s s' : σ} {e : ε} {es : List ε} :
    (e :: es).foldlM step s = .ok s' ↔
      ∃ s₁, step s e = .ok s₁ ∧ es.foldlM step s₁ = .ok s' := by
  rw [List.foldlM_cons, bind_eq_ok]

theorem foldlM_append_ok {s s' : σ} {es es' : List ε} :
    (es ++ es').foldlM step s = .ok s' ↔
      ∃ s₁, es.foldlM step s = .ok s₁ ∧ es'.foldlM step s₁ = .ok s' := by
  rw [List.foldlM_append, bind_eq_ok]

theorem foldlM_concat_ok {s s' : σ} {es : List ε} {e : ε} :
    (es ++ [e]).foldlM step s = .ok s' ↔
      ∃ s₁, es.foldlM step s = .ok s₁ ∧ step s₁ e = .ok s' := by
  rw [foldlM_append_ok]
  refine exists_congr fun s₁ => and_congr_right fun _ => ?_
  rw [foldlM_cons_ok]
  constructor
  · rintro ⟨s₂, h, h'⟩
    rw [List.foldlM_nil] at h'
    exact (Except.ok.inj h') ▸ h
  · intro h
    exact ⟨s', h, rfl⟩

/-- **The loop rule, total.** An invariant indexed by the elements done so far, which every
    iteration re-establishes without failing, holds at the end — and the loop gets there. -/
theorem foldlM_total {I : List ε → σ → Prop} (es : List ε)
    (hstep : ∀ done e rest s, es = done ++ e :: rest → I done s →
      ∃ s', step s e = .ok s' ∧ I (done ++ [e]) s')
    {s : σ} (h0 : I [] s) : ∃ s', es.foldlM step s = .ok s' ∧ I es s' := by
  suffices h : ∀ rest done s, es = done ++ rest → I done s →
      ∃ s', rest.foldlM step s = .ok s' ∧ I es s' from h es [] s rfl h0
  intro rest
  induction rest with
  | nil =>
    intro done s hes hI
    rw [List.append_nil] at hes
    exact ⟨s, rfl, hes ▸ hI⟩
  | cons e rest ih =>
    intro done s hes hI
    obtain ⟨s₁, hs₁, hI₁⟩ := hstep done e rest s hes hI
    obtain ⟨s', hs', hI'⟩ := ih (done ++ [e]) s₁ (by rw [hes]; simp) hI₁
    exact ⟨s', foldlM_cons_ok.mpr ⟨s₁, hs₁, hs'⟩, hI'⟩

/-- A loop for its checks only. -/
theorem forM_ok {f : ε → Except φ Unit} {es : List ε} (h : ∀ e ∈ es, f e = .ok ()) :
    es.forM f = .ok () := by
  induction es with
  | nil => rfl
  | cons e es ih =>
    show (f e >>= fun _ => es.forM f) = _
    rw [h e List.mem_cons_self, ok_bind]
    exact ih fun e' he' => h e' (List.mem_cons_of_mem _ he')

/-- **The run rule, partial.** What holds initially and is preserved by every step that
    succeeds holds in every state a run reaches. -/
theorem foldlM_inv {I : σ → Prop} {es : List ε}
    (hstep : ∀ s e s', e ∈ es → I s → step s e = .ok s' → I s')
    {s s' : σ} (h0 : I s) (h : es.foldlM step s = .ok s') : I s' := by
  induction es generalizing s with
  | nil => exact (Except.ok.inj h) ▸ h0
  | cons e es ih =>
    obtain ⟨s₁, hs₁, hs'⟩ := foldlM_cons_ok.mp h
    exact ih (fun s e s' he => hstep s e s' (List.mem_cons_of_mem _ he))
      (hstep s e s₁ List.mem_cons_self h0 hs₁) hs'

/-- A run that fails got as far as one step that fails. -/
theorem foldlM_error {es : List ε} {s : σ} {x : φ} (h : es.foldlM step s = .error x) :
    ∃ pre e post s₁, es = pre ++ e :: post ∧ pre.foldlM step s = .ok s₁ ∧
      step s₁ e = .error x := by
  induction es generalizing s with
  | nil => exact absurd h (by simp)
  | cons e es ih =>
    rw [List.foldlM_cons] at h
    rcases bind_eq_error.mp h with hs | ⟨s₁, hs₁, hrest⟩
    · exact ⟨[], e, es, s, rfl, rfl, hs⟩
    · obtain ⟨pre, e', post, s₂, rfl, hpre, he'⟩ := ih hrest
      exact ⟨e :: pre, e', post, s₂, rfl, foldlM_cons_ok.mpr ⟨s₁, hs₁, hpre⟩, he'⟩

/-- **A run goes through** exactly when each of its steps can be taken where the run gets to it. -/
theorem foldlM_ok_iff {es : List ε} {s : σ} : (∃ s', es.foldlM step s = .ok s') ↔
    ∀ pre e post, es = pre ++ e :: post → ∀ s₁, pre.foldlM step s = .ok s₁ →
      ∃ s', step s₁ e = .ok s' := by
  constructor
  · rintro ⟨s', hs'⟩ pre e post rfl s₁ hs₁
    obtain ⟨s₂, hs₂, hrest⟩ := foldlM_append_ok.mp hs'
    obtain rfl := Except.ok.inj (hs₁.symm.trans hs₂)
    obtain ⟨s₃, hs₃, -⟩ := foldlM_cons_ok.mp hrest
    exact ⟨s₃, hs₃⟩
  · intro h
    cases hrun : es.foldlM step s with
    | ok s' => exact ⟨s', rfl⟩
    | error x =>
      obtain ⟨pre, e, post, s₁, hsplit, hs₁, herror⟩ := foldlM_error hrun
      obtain ⟨s', hs'⟩ := h pre e post hsplit s₁ hs₁
      rw [herror] at hs'
      exact absurd hs' (by simp)

end Invariants

/-! ## The places of a list -/

/-- A statement about every element and what precedes it, one element further. -/
theorem forall_places_concat {P : List ε → ε → Prop} {es : List ε} {e : ε} :
    (∀ pre e' post, es ++ [e] = pre ++ e' :: post → P pre e') ↔
      (∀ pre e' post, es = pre ++ e' :: post → P pre e') ∧ P es e := by
  constructor
  · intro h
    refine ⟨fun pre e' post hsplit => h pre e' (post ++ [e]) (by rw [hsplit]; simp), ?_⟩
    exact h es e [] rfl
  · rintro ⟨hes, he⟩ pre e' post hsplit
    rcases List.eq_nil_or_concat post with rfl | ⟨post', last, rfl⟩
    · obtain ⟨rfl, hlast⟩ := List.append_inj' hsplit rfl
      obtain rfl := (List.cons.inj hlast).1
      exact he
    · rw [List.concat_eq_append, ← List.cons_append, ← List.append_assoc] at hsplit
      obtain ⟨hinit, -⟩ := List.append_inj' hsplit rfl
      exact hes pre e' post' hinit

/-- The same, from the front: what precedes an element starts with the first one. -/
theorem forall_places_cons {P : List ε → ε → Prop} {es : List ε} {e : ε} :
    (∀ pre e' post, e :: es = pre ++ e' :: post → P pre e') ↔
      P [] e ∧ ∀ pre e' post, es = pre ++ e' :: post → P (e :: pre) e' := by
  constructor
  · intro h
    refine ⟨h [] e es rfl, fun pre e' post hsplit => h (e :: pre) e' post ?_⟩
    rw [hsplit]
    rfl
  · rintro ⟨he, hes⟩ pre e' post hsplit
    cases pre with
    | nil =>
      obtain ⟨rfl, -⟩ := List.cons.inj hsplit
      exact he
    | cons e₀ pre =>
      obtain ⟨rfl, hrest⟩ := List.cons.inj hsplit
      exact hes pre e' post hrest

theorem forall_places_nil {P : List ε → ε → Prop} :
    ∀ pre e' post, ([] : List ε) = pre ++ e' :: post → P pre e' :=
  fun _ _ _ h => absurd h (by simp)

/-- A place of what is kept is a place of the whole list. -/
theorem place_of_filter {keep : ε → Bool} {es pre post : List ε} {e : ε}
    (h : es.filter keep = pre ++ e :: post) :
    ∃ pre' post', es = pre' ++ e :: post' ∧ pre'.filter keep = pre ∧ keep e = true := by
  obtain ⟨first, rest, rfl, hfirst, hrest⟩ := List.filter_eq_append_iff.mp h
  obtain ⟨dropped, last, rfl, hdropped, hkeep, -⟩ := List.filter_eq_cons_iff.mp hrest
  refine ⟨first ++ dropped, last, by simp, ?_, hkeep⟩
  rw [List.filter_append, hfirst, List.filter_eq_nil_iff.mpr hdropped, List.append_nil]

/-! ## Two folds -/

section Compare

variable {step : σ → ε → Except φ σ} {step' : τ → ε → Except φ τ}

/-- **Lockstep.** If every step of the left fold is matched on the right, so is the run. -/
theorem foldlM_lockstep {R : σ → τ → Prop} {es : List ε}
    (hstep : ∀ s t e s', e ∈ es → R s t → step s e = .ok s' →
      ∃ t', step' t e = .ok t' ∧ R s' t')
    {s s' : σ} {t : τ} (h0 : R s t) (h : es.foldlM step s = .ok s') :
    ∃ t', es.foldlM step' t = .ok t' ∧ R s' t' := by
  induction es generalizing s t with
  | nil => exact ⟨t, rfl, (Except.ok.inj h) ▸ h0⟩
  | cons e es ih =>
    obtain ⟨s₁, hs₁, hs'⟩ := foldlM_cons_ok.mp h
    obtain ⟨t₁, ht₁, hR₁⟩ := hstep s t e s₁ List.mem_cons_self h0 hs₁
    obtain ⟨t', ht', hR'⟩ :=
      ih (fun s t e s' he => hstep s t e s' (List.mem_cons_of_mem _ he)) hR₁ hs'
    exact ⟨t', foldlM_cons_ok.mpr ⟨t₁, ht₁, ht'⟩, hR'⟩

/-- **Unwinding.** The right fold runs only the elements `keep` selects. If a selected element
    takes related states to related states, and an unselected one leaves the left state related
    to where the right one already is, the two runs end in related states. -/
theorem foldlM_unwind {R : σ → τ → Prop} {keep : ε → Bool} {es : List ε}
    (hkeep : ∀ s t e s', keep e = true → R s t → step s e = .ok s' →
      ∃ t', step' t e = .ok t' ∧ R s' t')
    (hskip : ∀ s t e s', keep e = false → R s t → step s e = .ok s' → R s' t)
    {s s' : σ} {t : τ} (h0 : R s t) (h : es.foldlM step s = .ok s') :
    ∃ t', (es.filter keep).foldlM step' t = .ok t' ∧ R s' t' := by
  induction es generalizing s t with
  | nil => exact ⟨t, rfl, (Except.ok.inj h) ▸ h0⟩
  | cons e es ih =>
    obtain ⟨s₁, hs₁, hs'⟩ := foldlM_cons_ok.mp h
    cases hk : keep e with
    | true =>
      obtain ⟨t₁, ht₁, hR₁⟩ := hkeep s t e s₁ hk h0 hs₁
      obtain ⟨t', ht', hR'⟩ := ih hR₁ hs'
      rw [List.filter_cons_of_pos hk]
      exact ⟨t', foldlM_cons_ok.mpr ⟨t₁, ht₁, ht'⟩, hR'⟩
    | false =>
      rw [List.filter_cons_of_neg (by rw [hk]; simp)]
      exact ih (hskip s t e s₁ hk h0 hs₁) hs'

end Compare

/-! ## Loops over the entries of a map -/

section Entries

variable {κ : Type} {cmp : κ → κ → Ordering} [Std.TransCmp cmp] [Std.LawfulEqCmp cmp]
  {t : Std.ExtTreeMap κ β cmp} {k : κ} {v : β}

theorem mem_entries : (k, v) ∈ t.toList ↔ t[k]? = some v :=
  Std.ExtTreeMap.mem_toList_iff_getElem?_eq_some

/-- The entry a loop stands on is in the map, and its key was not met before. -/
theorem entries_split {done rest : List (κ × β)} (h : t.toList = done ++ (k, v) :: rest) :
    t[k]? = some v ∧ ∀ v', (k, v') ∉ done := by
  constructor
  · rw [← mem_entries, h]
    simp
  · intro v' hv'
    have hd := Std.ExtTreeMap.distinct_keys_toList (t := t)
    rw [h, List.pairwise_append] at hd
    exact hd.2.2 _ hv' (k, v) List.mem_cons_self Std.ReflCmp.compare_self

end Entries
end Lib
