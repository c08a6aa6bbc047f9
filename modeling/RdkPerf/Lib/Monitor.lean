import RdkPerf.Lib.Sections

/-!
# Threads under one recursive lock

The lock counts how often its owner took it. A `Pool` is threads that are in the middle of their
calls; any of them may make the next step.

Sections do not interleave, whatever order the threads step in: the shared state is what the
sections make of it one after the other, in the order in which they took the lock (`Serial`), and
every call can return (`Serial.returns`).
-/

namespace Lib

/-! ## The lock -/

/-- Who holds the lock, and how often it took it. -/
abbrev Owner (ι : Type) := Option (ι × Nat)

namespace Owner

variable {ι : Type} [DecidableEq ι]

/-- Taking the lock: `none` while another has it. -/
def acquire (o : Owner ι) (t : ι) : Option (Owner ι) :=
  match o with
  | none => some (some (t, 1))
  | some (u, n) => if u = t then some (some (u, n + 1)) else none

/-- Giving it back, which fails without an effect if another has it. -/
def release (o : Owner ι) (t : ι) : Owner ι :=
  match o with
  | none => none
  | some (u, n) => if u = t then if n ≤ 1 then none else some (u, n - 1) else some (u, n)

end Owner

/-! ## Threads -/

/-- Threads, and what they share. `busy` has the call a thread is in and what is left of it;
    `order` has the calls that took the lock while nobody had it, and no step looks at it. -/
structure Pool (ι κ σ φ : Type) : Type 1 where
  shared : σ
  owner : Owner ι
  busy : ι → Option (κ × Code σ φ Unit)
  order : List (ι × κ)

namespace Pool

variable {ι κ σ φ : Type} [DecidableEq ι]

inductive Action (ι κ : Type) where
  | call (t : ι) (op : κ)
  | step (t : ι)

def init (s : σ) : Pool ι κ σ φ := ⟨s, none, fun _ => none, []⟩

def set (p : Pool ι κ σ φ) (t : ι) (b : Option (κ × Code σ φ Unit)) : Pool ι κ σ φ :=
  { p with busy := fun u => if u = t then b else p.busy u }

@[simp] theorem set_order (p : Pool ι κ σ φ) (t : ι) (b : Option (κ × Code σ φ Unit)) :
    (p.set t b).order = p.order := rfl

theorem set_busy (p : Pool ι κ σ φ) (t u : ι) (b : Option (κ × Code σ φ Unit)) :
    (p.set t b).busy u = if u = t then b else p.busy u := rfl

/-- One step of a thread in the call `op`. A fault is the end of the run. -/
def advance (p : Pool ι κ σ φ) (t : ι) (op : κ) : Code σ φ Unit → Option (Pool ι κ σ φ)
  | .ret _ => some (p.set t none)
  | .act f k =>
    match f p.shared with
    | .error _ => none
    | .ok (b, s) => some { p.set t (some (op, k b)) with shared := s }
  | .enter k =>
    match p.owner.acquire t with
    | none => none
    | some owner =>
      let order := if p.owner.isNone then p.order ++ [(t, op)] else p.order
      some { p.set t (some (op, k)) with owner := owner, order := order }
  | .leave k => some { p.set t (some (op, k)) with owner := p.owner.release t }

def step (code : κ → Code σ φ Unit) (p : Pool ι κ σ φ) : Action ι κ → Option (Pool ι κ σ φ)
  | .call t op =>
    match p.busy t with
    | some _ => none
    | none => some (p.set t (some (op, code op)))
  | .step t => do
    let (op, c) ← p.busy t
    p.advance t op c

def run (code : κ → Code σ φ Unit) (s : σ) (actions : List (Action ι κ)) :
    Option (Pool ι κ σ φ) :=
  actions.foldlM (step code) (init s)

/-- The calls a thread made. -/
def callsOf (t : ι) (actions : List (Action ι κ)) : List κ :=
  actions.filterMap fun
    | .call u op => if u = t then some op else none
    | .step _ => none

/-- The calls of a thread that took the lock. -/
def enteredBy (t : ι) (order : List (ι × κ)) : List κ :=
  order.filterMap fun e => if e.1 = t then some e.2 else none

/-- Calls, one after the other. -/
def serially (code : κ → Code σ φ Unit) (s : σ) (ops : List κ) : Except φ σ :=
  ops.foldlM (fun s op => Prod.snd <$> (code op).run s) s

/-! ## One after the other -/

/-- The thread is in the call `op` and has not taken the lock for it yet. -/
def Waits (code : κ → Code σ φ Unit) (p : Pool ι κ σ φ) (t : ι) (op : κ) : Prop :=
  p.busy t = some (op, code op) ∧ ∀ n, p.owner ≠ some (t, n)

/-- What the sections entered so far come to. While nobody has the lock they are over. While a
    thread has it, its own is the last: what is left of it does to the shared state what the whole
    would have done to the state the others left. -/
structure Serial (code : κ → Code σ φ Unit) (s₀ : σ) (actions : List (Action ι κ))
    (p : Pool ι κ σ φ) : Prop where
  free : p.owner = none → serially code s₀ (p.order.map Prod.snd) = .ok p.shared
  inside : ∀ {t n}, p.owner = some (t, n) → 0 < n ∧ ∃ pre op c s, p.order = pre ++ [(t, op)] ∧
    p.busy t = some (op, c) ∧ c.Guarded n ∧ serially code s₀ (pre.map Prod.snd) = .ok s ∧
      (code op).run s = c.run p.shared
  sections : ∀ {t op c}, p.busy t = some (op, c) → (code op).IsSection
  outside : ∀ {t op c}, p.busy t = some (op, c) → (∀ n, p.owner ≠ some (t, n)) →
    c = code op ∨ c = .ret ()
  ordered : ∀ t, (∃ op, p.Waits code t op ∧ callsOf t actions = enteredBy t p.order ++ [op]) ∨
    (∀ op, ¬ p.Waits code t op) ∧ callsOf t actions = enteredBy t p.order

theorem callsOf_call (t u : ι) (op : κ) (actions : List (Action ι κ)) :
    callsOf t (actions ++ [.call u op]) =
      callsOf t actions ++ if u = t then [op] else [] := by
  rw [callsOf, List.filterMap_append]
  by_cases hu : u = t
  · simp [hu, callsOf]
  · simp [hu, callsOf]

theorem callsOf_step (t u : ι) (actions : List (Action ι κ)) :
    callsOf t (actions ++ [.step u]) = callsOf t actions := by
  rw [callsOf, List.filterMap_append]
  exact List.append_nil _

theorem enteredBy_concat (t u : ι) (op : κ) (order : List (ι × κ)) :
    enteredBy t (order ++ [(u, op)]) = enteredBy t order ++ if u = t then [op] else [] := by
  rw [enteredBy, List.filterMap_append]
  by_cases hu : u = t
  · simp [hu, enteredBy]
  · simp [hu, enteredBy]

theorem serially_concat {code : κ → Code σ φ Unit} {s₀ s s' : σ} {ops : List κ} {op : κ} {a : Unit}
    (h : serially code s₀ ops = .ok s) (hop : (code op).run s = .ok (a, s')) :
    serially code s₀ (ops ++ [op]) = .ok s' := by
  refine foldlM_concat_ok.mpr ⟨s, h, ?_⟩
  rw [hop]
  rfl

namespace Serial

variable {code : κ → Code σ φ Unit} {s₀ : σ} {actions : List (Action ι κ)} {p p' : Pool ι κ σ φ}
  {t : ι} {op : κ}

theorem init (code : κ → Code σ φ Unit) (s₀ : σ) : Serial code s₀ [] (Pool.init (ι := ι) s₀) where
  free _ := rfl
  inside h := absurd h (by simp [Pool.init])
  sections h := absurd h (by simp [Pool.init])
  outside h := absurd h (by simp [Pool.init])
  ordered _ := Or.inr ⟨fun _ h => absurd h.1 (by simp [Pool.init]), rfl⟩

/-- The owner is in a call, so who is in none has not got the lock. -/
theorem not_owner (h : Serial code s₀ actions p) (ht : p.busy t = none) (n : Nat) :
    p.owner ≠ some (t, n) := by
  intro howner
  obtain ⟨-, pre, op, c, s, -, hbusy, -⟩ := h.inside howner
  rw [ht] at hbusy
  cases hbusy

/-- Who waits is at the start of a section. -/
theorem waits_enter (h : Serial code s₀ actions p) (ht : p.Waits code t op) :
    ∃ k, code op = .enter k ∧ k.Guarded 1 := h.sections ht.1

/-- A call begins. -/
theorem call (h : Serial code s₀ actions p) (ht : p.busy t = none) (hop : (code op).IsSection) :
    Serial code s₀ (actions ++ [.call t op]) (p.set t (some (op, code op))) where
  free := h.free
  inside := by
    intro u n howner
    obtain ⟨hn, pre, op', c, s, horder, hbusy, hrest⟩ := h.inside howner
    refine ⟨hn, pre, op', c, s, horder, ?_, hrest⟩
    rw [set_busy, if_neg]
    · exact hbusy
    · rintro rfl
      exact h.not_owner ht n howner
  sections := by
    intro u op' c hbusy
    rw [set_busy] at hbusy
    split at hbusy
    · obtain ⟨rfl, -⟩ := Prod.mk.inj (Option.some.inj hbusy)
      exact hop
    · exact h.sections hbusy
  outside := by
    intro u op' c hbusy howner
    rw [set_busy] at hbusy
    split at hbusy
    · obtain ⟨rfl, rfl⟩ := Prod.mk.inj (Option.some.inj hbusy)
      exact Or.inl rfl
    · exact h.outside hbusy howner
  ordered := by
    intro u
    rw [callsOf_call]
    by_cases hu : t = u
    · rw [if_pos hu]
      subst hu
      refine Or.inl ⟨op, ⟨by rw [set_busy, if_pos rfl], h.not_owner ht⟩, ?_⟩
      rcases h.ordered t with ⟨op', hwaits, -⟩ | ⟨-, hcalls⟩
      · exact absurd (hwaits.1.symm.trans ht) (by simp)
      · rw [hcalls]
        rfl
    · have hsame : ∀ op', (p.set t (some (op, code op))).Waits code u op' ↔ p.Waits code u op' := by
        intro op'
        rw [Waits, Waits, set_busy, if_neg (Ne.symm hu)]
        rfl
      rw [if_neg hu, List.append_nil]
      simp only [hsame]
      exact h.ordered u

/-- After a step of `t` every other thread is where it was, and `t` waits no more. -/
structure Moved (code : κ → Code σ φ Unit) (p p' : Pool ι κ σ φ) (t : ι) : Prop where
  busy : ∀ {u}, u ≠ t → p'.busy u = p.busy u
  owner : ∀ {u}, u ≠ t → ∀ n, p'.owner = some (u, n) ↔ p.owner = some (u, n)
  order : ∀ {u}, u ≠ t → enteredBy u p'.order = enteredBy u p.order
  stays : ∀ op, ¬ p'.Waits code t op

theorem Moved.ordered (hM : Moved code p p' t) (h : Serial code s₀ actions p)
    (hself : callsOf t actions = enteredBy t p'.order) (u : ι) :
    (∃ op, p'.Waits code u op ∧
        callsOf u (actions ++ [.step t]) = enteredBy u p'.order ++ [op]) ∨
      (∀ op, ¬ p'.Waits code u op) ∧
        callsOf u (actions ++ [.step t]) = enteredBy u p'.order := by
  rw [callsOf_step]
  by_cases hu : u = t
  · subst hu
    exact Or.inr ⟨hM.stays, hself⟩
  · have hsame : ∀ op, p'.Waits code u op ↔ p.Waits code u op := by
      intro op
      rw [Waits, Waits, hM.busy hu]
      exact and_congr_right fun _ => forall_congr' fun n => not_congr (hM.owner hu n)
    simp only [hsame, hM.order hu]
    exact h.ordered u

/-- It is in the call it was in, if it is in one. -/
theorem Moved.sections (hM : Moved code p p' t) (h : Serial code s₀ actions p)
    {c₀ : Code σ φ Unit} {op₀ : κ} (hold : p.busy t = some (op₀, c₀))
    (hself : ∀ {op c}, p'.busy t = some (op, c) → op = op₀) {u : ι} {op : κ} {c : Code σ φ Unit}
    (hbusy : p'.busy u = some (op, c)) : (code op).IsSection := by
  by_cases hu : u = t
  · subst hu
    rw [hself hbusy]
    exact h.sections hold
  · rw [hM.busy hu] at hbusy
    exact h.sections hbusy

theorem Moved.outside (hM : Moved code p p' t) (h : Serial code s₀ actions p)
    (hself : ∀ {op c}, p'.busy t = some (op, c) → (∀ n, p'.owner ≠ some (t, n)) →
      c = code op ∨ c = .ret ()) {u : ι} {op : κ} {c : Code σ φ Unit}
    (hbusy : p'.busy u = some (op, c)) (howner : ∀ n, p'.owner ≠ some (u, n)) :
    c = code op ∨ c = .ret () := by
  by_cases hu : u = t
  · subst hu
    exact hself hbusy howner
  · rw [hM.busy hu] at hbusy
    exact h.outside hbusy fun n => fun hown => howner n ((hM.owner hu n).mpr hown)

/-- A thread that does not wait has entered all its calls. -/
theorem calls_of_not_waits (h : Serial code s₀ actions p) (hno : ∀ op, ¬ p.Waits code t op) :
    callsOf t actions = enteredBy t p.order := by
  rcases h.ordered t with ⟨op, hwaits, -⟩ | ⟨-, hcalls⟩
  · exact absurd hwaits (hno op)
  · exact hcalls

/-- A thread that is about to act, or to give the lock back, has it. -/
theorem owner_of_busy (h : Serial code s₀ actions p) {c : Code σ φ Unit}
    (hbusy : p.busy t = some (op, c)) (henter : ∀ k, c ≠ .enter k) (hret : c ≠ .ret ()) :
    ∃ n, p.owner = some (t, n) := by
  by_contra hno
  obtain ⟨k, hk, -⟩ := h.sections hbusy
  rcases h.outside hbusy fun n hn => hno ⟨n, hn⟩ with rfl | rfl
  · exact henter k hk
  · exact hret rfl

/-- What the owner is doing. -/
theorem inside_of_busy (h : Serial code s₀ actions p) {c : Code σ φ Unit} {n : Nat}
    (howner : p.owner = some (t, n)) (hbusy : p.busy t = some (op, c)) :
    0 < n ∧ c.Guarded n ∧ ∃ pre s, p.order = pre ++ [(t, op)] ∧
      serially code s₀ (pre.map Prod.snd) = .ok s ∧ (code op).run s = c.run p.shared := by
  obtain ⟨hn, pre, op', c', s, horder, hbusy', hguarded, hpre, hrun⟩ := h.inside howner
  obtain ⟨rfl, rfl⟩ := Prod.mk.inj (Option.some.inj (hbusy.symm.trans hbusy'))
  exact ⟨hn, hguarded, pre, s, horder, hpre, hrun⟩

theorem busy_of_set {op' : κ} {c k : Code σ φ Unit}
    (h : (p.set t (some (op, k))).busy t = some (op', c)) : op' = op := by
  rw [set_busy, if_pos rfl] at h
  exact (Prod.mk.inj (Option.some.inj h)).1.symm

/-- A call is over. -/
theorem ret (h : Serial code s₀ actions p) (hbusy : p.busy t = some (op, .ret ())) :
    Serial code s₀ (actions ++ [.step t]) (p.set t none) := by
  have hno : ∀ n, p.owner ≠ some (t, n) := by
    intro n howner
    obtain ⟨hn, hguarded, -⟩ := h.inside_of_busy howner hbusy
    exact Nat.ne_of_gt hn hguarded
  have hidle : ∀ {op' : κ} {c : Code σ φ Unit}, (p.set t none).busy t ≠ some (op', c) := by
    intro op' c
    rw [set_busy, if_pos rfl]
    simp
  have hM : Moved code p (p.set t none) t :=
    ⟨fun hu => if_neg hu, fun _ _ => Iff.rfl, fun _ => rfl, fun _ hwaits => hidle hwaits.1⟩
  refine ⟨h.free, ?_, ?_, ?_, hM.ordered h ?_⟩
  · intro u n howner
    obtain ⟨hn, pre, op', c, s, horder, hbusy', hrest⟩ := h.inside howner
    refine ⟨hn, pre, op', c, s, horder, ?_, hrest⟩
    rw [set_busy, if_neg]
    · exact hbusy'
    · rintro rfl
      exact hno n howner
  · exact fun hbusy' => hM.sections h hbusy (fun hself => absurd hself hidle) hbusy'
  · intro u op' c hbusy' howner
    exact hM.outside h (fun hself _ => absurd hself hidle) hbusy' howner
  · refine h.calls_of_not_waits fun op' hwaits => ?_
    obtain ⟨k, hk, -⟩ := h.waits_enter hwaits
    have hcode := (Prod.mk.inj (Option.some.inj (hwaits.1.symm.trans hbusy))).2
    rw [hk] at hcode
    cases hcode

/-- The owner does a step of its section, and has the lock `n'` times after it. -/
theorem go (h : Serial code s₀ actions p) {c k : Code σ φ Unit} {n n' : Nat} {s' : σ}
    (howner : p.owner = some (t, n)) (hbusy : p.busy t = some (op, c)) (hn' : 0 < n')
    (hguarded : k.Guarded n') (hrun : c.run p.shared = k.run s') :
    Serial code s₀ (actions ++ [.step t])
      { p.set t (some (op, k)) with shared := s', owner := some (t, n') } := by
  obtain ⟨-, -, pre, s, horder, hpre, hcode⟩ := h.inside_of_busy howner hbusy
  have hM : Moved code p
      { p.set t (some (op, k)) with shared := s', owner := some (t, n') } t := by
    refine ⟨fun hu => if_neg hu, fun hu m => ?_, fun _ => rfl, fun op' hwaits =>
      hwaits.2 n' rfl⟩
    rw [howner]
    simp [Ne.symm hu]
  refine ⟨fun hnone => absurd hnone (by simp), ?_, ?_, ?_, hM.ordered h ?_⟩
  · intro u m hown
    obtain ⟨rfl, rfl⟩ := Prod.mk.inj (Option.some.inj hown)
    exact ⟨hn', pre, op, k, s, horder, if_pos rfl, hguarded, hpre, hcode.trans hrun⟩
  · exact fun hbusy' => hM.sections h hbusy (fun hself => busy_of_set hself) hbusy'
  · intro u op' c' hbusy' hown
    exact hM.outside h (fun _ hself => absurd rfl (hself n')) hbusy' hown
  · exact h.calls_of_not_waits fun op' hwaits => hwaits.2 n howner

/-- A section is entered. -/
theorem enter (h : Serial code s₀ actions p) {k : Code σ φ Unit} (hfree : p.owner = none)
    (hbusy : p.busy t = some (op, .enter k)) :
    Serial code s₀ (actions ++ [.step t])
      { p.set t (some (op, k)) with owner := some (t, 1), order := p.order ++ [(t, op)] } := by
  have hno : ∀ n, p.owner ≠ some (t, n) := by
    rw [hfree]
    simp
  have hcode : code op = .enter k := by
    rcases h.outside hbusy hno with hc | hc
    · exact hc.symm
    · cases hc
  have hwaits : p.Waits code t op := ⟨by rw [hbusy, hcode], hno⟩
  obtain ⟨k', hk', hguarded⟩ := h.sections hbusy
  obtain rfl : k' = k := by
    rw [hcode] at hk'
    cases hk'
    rfl
  have hM : Moved code p
      { p.set t (some (op, k')) with owner := some (t, 1), order := p.order ++ [(t, op)] } t := by
    refine ⟨fun hu => if_neg hu, fun hu m => ?_, fun hu => ?_, fun op' hw => hw.2 1 rfl⟩
    · rw [hfree]
      simp [Ne.symm hu]
    · rw [enteredBy_concat, if_neg (Ne.symm hu), List.append_nil]
  refine ⟨fun hnone => absurd hnone (by simp), ?_, ?_, ?_, hM.ordered h ?_⟩
  · intro u m hown
    obtain ⟨rfl, rfl⟩ := Prod.mk.inj (Option.some.inj hown)
    exact ⟨Nat.one_pos, p.order, op, k', p.shared, rfl, if_pos rfl, hguarded, h.free hfree,
      by rw [hcode]; rfl⟩
  · exact fun hbusy' => hM.sections h hbusy (fun hself => busy_of_set hself) hbusy'
  · intro u op' c' hbusy' hown
    exact hM.outside h (fun _ hself => absurd rfl (hself 1)) hbusy' hown
  · rw [enteredBy_concat, if_pos rfl]
    rcases h.ordered t with ⟨op', hwaits', hcalls⟩ | ⟨hnone, -⟩
    · obtain ⟨rfl, -⟩ := Prod.mk.inj (Option.some.inj (hwaits'.1.symm.trans hwaits.1))
      exact hcalls
    · exact absurd hwaits (hnone op)

/-- A section is left. -/
theorem leave (h : Serial code s₀ actions p) {k : Code σ φ Unit}
    (howner : p.owner = some (t, 1)) (hbusy : p.busy t = some (op, .leave k)) :
    Serial code s₀ (actions ++ [.step t]) { p.set t (some (op, k)) with owner := none } := by
  obtain ⟨-, ⟨-, hguarded⟩, pre, s, horder, hpre, hrun⟩ := h.inside_of_busy howner hbusy
  obtain rfl := hguarded.eq_ret
  obtain ⟨k₀, hk₀, -⟩ := h.sections hbusy
  have hM : Moved code p { p.set t (some (op, .ret ())) with owner := none } t := by
    refine ⟨fun hu => if_neg hu, fun hu m => ?_, fun _ => rfl, fun op' hwaits => ?_⟩
    · rw [howner]
      simp [Ne.symm hu]
    · obtain ⟨rfl, hcode⟩ := Prod.mk.inj (Option.some.inj ((if_pos rfl).symm.trans hwaits.1))
      rw [hk₀] at hcode
      cases hcode
  refine ⟨fun _ => ?_, fun hown => absurd hown (by simp), ?_, ?_, hM.ordered h ?_⟩
  · show serially code s₀ (p.order.map Prod.snd) = _
    rw [horder, List.map_append]
    exact serially_concat hpre hrun
  · exact fun hbusy' => hM.sections h hbusy (fun hself => busy_of_set hself) hbusy'
  · intro u op' c' hbusy' hown
    refine hM.outside h (fun hself _ => ?_) hbusy' hown
    obtain ⟨-, rfl⟩ := Prod.mk.inj (Option.some.inj ((if_pos rfl).symm.trans hself))
    exact Or.inr rfl
  · exact h.calls_of_not_waits fun op' hwaits => hwaits.2 1 howner

/-- **One step**, of whatever thread. -/
theorem step (h : Serial code s₀ actions p) {a : Action ι κ}
    (hop : ∀ t op, a = .call t op → (code op).IsSection) (hstep : p.step code a = some p') :
    Serial code s₀ (actions ++ [a]) p' := by
  cases a with
  | call t op =>
    simp only [Pool.step] at hstep
    cases ht : p.busy t with
    | some _ =>
      rw [ht] at hstep
      cases hstep
    | none =>
      rw [ht] at hstep
      obtain rfl := Option.some.inj hstep
      exact h.call ht (hop t op rfl)
  | step t =>
    obtain ⟨⟨op, c⟩, hbusy, hstep⟩ := Option.bind_eq_some_iff.mp hstep
    cases c with
    | ret a =>
      obtain rfl := Option.some.inj hstep
      exact h.ret hbusy
    | act f k =>
      obtain ⟨n, howner⟩ := h.owner_of_busy hbusy (by simp) (by simp)
      obtain ⟨hn, ⟨-, hguarded⟩, -⟩ := h.inside_of_busy howner hbusy
      simp only [advance] at hstep
      cases hf : f p.shared with
      | error e =>
        rw [hf] at hstep
        cases hstep
      | ok bs =>
        rw [hf] at hstep
        obtain rfl := Option.some.inj hstep
        have hrest : (Code.act f k).run p.shared = (k bs.1).run bs.2 := by
          simp only [Code.run, hf, ok_bind]
        have hgo := h.go howner hbusy hn (hguarded bs.1) hrest
        rw [← howner] at hgo
        exact hgo
    | enter k =>
      simp only [advance] at hstep
      cases howner : p.owner with
      | none =>
        rw [howner] at hstep
        obtain rfl := Option.some.inj hstep
        exact h.enter howner hbusy
      | some o =>
        obtain ⟨u, n⟩ := o
        simp only [howner, Owner.acquire] at hstep
        by_cases hu : u = t
        · subst hu
          obtain ⟨hn, ⟨-, hguarded⟩, -⟩ := h.inside_of_busy howner hbusy
          rw [if_pos rfl] at hstep
          obtain rfl := Option.some.inj hstep
          exact h.go howner hbusy (Nat.succ_pos n) hguarded rfl
        · rw [if_neg hu] at hstep
          cases hstep
    | leave k =>
      obtain ⟨n, howner⟩ := h.owner_of_busy hbusy (by simp) (by simp)
      obtain ⟨hn, ⟨-, hguarded⟩, -⟩ := h.inside_of_busy howner hbusy
      obtain rfl := Option.some.inj hstep
      rw [howner, Owner.release]
      simp only [if_true]
      split
      · next hone =>
        obtain rfl : n = 1 := Nat.le_antisymm hone hn
        exact h.leave howner hbusy
      · next hmore =>
        exact h.go howner hbusy (Nat.sub_pos_of_lt (Nat.lt_of_not_le hmore)) hguarded rfl

/-- **Any run** of sections, whatever order their threads step in. -/
theorem steps (h : Serial code s₀ actions p) {more : List (Action ι κ)}
    (hops : ∀ t op, .call t op ∈ more → (code op).IsSection)
    (hrun : more.foldlM (Pool.step code) p = some p') : Serial code s₀ (actions ++ more) p' := by
  induction more generalizing actions p with
  | nil =>
    obtain rfl := Option.some.inj hrun
    rw [List.append_nil]
    exact h
  | cons a more ih =>
    obtain ⟨p₁, hstep, hrun⟩ := Option.bind_eq_some_iff.mp hrun
    have h₁ : Serial code s₀ (actions ++ [a]) p₁ := by
      refine h.step ?_ hstep
      rintro t op rfl
      exact hops t op (List.mem_cons_self ..)
    rw [List.append_cons]
    exact ih h₁ (fun t op hmem => hops t op (List.mem_cons_of_mem a hmem)) hrun

theorem run (hops : ∀ t op, .call t op ∈ actions → (code op).IsSection)
    (hrun : Pool.run code s₀ actions = some p) : Serial code s₀ actions p :=
  (Serial.init code s₀).steps hops hrun

/-! ## Every call can return -/

/-- A thread that goes on alone until its call is over. -/
def Finishes (code : κ → Code σ φ Unit) (p : Pool ι κ σ φ) (t : ι) (p' : Pool ι κ σ φ) : Prop :=
  (∃ n, (List.replicate n (.step t)).foldlM (Pool.step code) p = some p') ∧
    p'.owner = none ∧ p'.busy t = none ∧ ∀ u, u ≠ t → p'.busy u = p.busy u

theorem Finishes.cons {p₁ : Pool ι κ σ φ} (hstep : p.step code (.step t) = some p₁)
    (hothers : ∀ u, u ≠ t → p₁.busy u = p.busy u) (h : Finishes code p₁ t p') :
    Finishes code p t p' := by
  obtain ⟨⟨n, hrun⟩, hfree, hidle, hbusy⟩ := h
  refine ⟨⟨n + 1, ?_⟩, hfree, hidle, fun u hu => (hbusy u hu).trans (hothers u hu)⟩
  rw [List.replicate_succ, List.foldlM_cons, hstep]
  exact hrun

/-- The last step of a call. -/
theorem finishes_ret (hfree : p.owner = none) (hbusy : p.busy t = some (op, .ret ())) :
    Finishes code p t (p.set t none) := by
  refine ⟨⟨1, ?_⟩, hfree, if_pos rfl, fun u hu => if_neg hu⟩
  simp [Pool.step, hbusy, advance]

/-- A section that is entered and fails, fails where it is one after the other. -/
theorem error_of_run (h : Serial code s₀ actions p) {c : Code σ φ Unit} {n : Nat} {e : φ}
    (howner : p.owner = some (t, n)) (hbusy : p.busy t = some (op, c))
    (hfail : c.run p.shared = .error e) :
    serially code s₀ (p.order.map Prod.snd) = .error e := by
  obtain ⟨-, -, pre, s, horder, hpre, hcode⟩ := h.inside_of_busy howner hbusy
  rw [serially] at hpre ⊢
  rw [horder, List.map_append, List.foldlM_append, hpre, ok_bind]
  show (Prod.snd <$> (code op).run s >>= _) = _
  rw [hcode, hfail]
  rfl

/-- The owner waits for nobody: its section ends, unless the sections fail one after the other. -/
theorem finishes_owner (h : Serial code s₀ actions p) {c : Code σ φ Unit} {n : Nat}
    (howner : p.owner = some (t, n)) (hbusy : p.busy t = some (op, c)) :
    (∃ p', Finishes code p t p' ∧ p'.order = p.order) ∨
      ∃ e, serially code s₀ (p.order.map Prod.snd) = .error e := by
  have hcall : ∀ (u : ι) (op' : κ), Action.step t = .call u op' → (code op').IsSection := by simp
  induction c generalizing p actions n with
  | ret a =>
    obtain ⟨hn, hguarded, -⟩ := h.inside_of_busy howner hbusy
    exact absurd hguarded (Nat.ne_of_gt hn)
  | act f k ih =>
    cases hf : f p.shared with
    | error e =>
      refine Or.inr ⟨e, h.error_of_run howner hbusy ?_⟩
      simp only [Code.run, hf, error_bind]
    | ok bs =>
      have hstep : p.step code (.step t) =
          some { p.set t (some (op, k bs.1)) with shared := bs.2 } := by
        simp [Pool.step, hbusy, advance, hf]
      rcases ih bs.1 (h.step hcall hstep) howner (if_pos rfl) with ⟨p', hp', horder⟩ | hfail
      · exact Or.inl ⟨p', hp'.cons hstep fun u hu => if_neg hu, horder⟩
      · exact Or.inr hfail
  | enter k ih =>
    have hstep : p.step code (.step t) =
        some { p.set t (some (op, k)) with owner := some (t, n + 1) } := by
      simp [Pool.step, hbusy, advance, howner, Owner.acquire]
    rcases ih (h.step hcall hstep) rfl (if_pos rfl) with ⟨p', hp', horder⟩ | hfail
    · exact Or.inl ⟨p', hp'.cons hstep fun u hu => if_neg hu, horder⟩
    · exact Or.inr hfail
  | leave k ih =>
    obtain ⟨hn, ⟨-, hguarded⟩, -⟩ := h.inside_of_busy howner hbusy
    have hstep : p.step code (.step t) =
        some { p.set t (some (op, k)) with owner := p.owner.release t } := by
      simp [Pool.step, hbusy, advance]
    by_cases hone : n = 1
    · -- the last time it gives the lock back
      subst hone
      obtain rfl := hguarded.eq_ret
      refine Or.inl ⟨_, (finishes_ret ?_ (if_pos rfl)).cons hstep fun u hu => if_neg hu, rfl⟩
      simp [howner, Owner.release]
    · have hmore : p.owner.release t = some (t, n - 1) := by
        have hnot : ¬ n ≤ 1 := fun hle => hone (Nat.le_antisymm hle hn)
        simp [howner, Owner.release, hnot]
      rcases ih (h.step hcall hstep) hmore (if_pos rfl) with ⟨p', hp', horder⟩ | hfail
      · exact Or.inl ⟨p', hp'.cons hstep fun u hu => if_neg hu, horder⟩
      · exact Or.inr hfail

/-- While nobody has the lock, any thread can go on to the end of its call. -/
theorem finishes_free (h : Serial code s₀ actions p) {c : Code σ φ Unit} (hfree : p.owner = none)
    (hbusy : p.busy t = some (op, c)) :
    (∃ p', Finishes code p t p') ∨
      ∃ e, serially code s₀ (p.order.map Prod.snd ++ [op]) = .error e := by
  obtain ⟨k, hk, -⟩ := h.sections hbusy
  rcases h.outside hbusy (by simp [hfree]) with rfl | rfl
  · have hstep : p.step code (.step t) =
        some { p.set t (some (op, k)) with owner := some (t, 1), order := p.order ++ [(t, op)] } := by
      simp [Pool.step, hbusy, hk, advance, hfree, Owner.acquire]
    have h₁ := h.step (by simp) hstep
    rcases h₁.finishes_owner rfl (if_pos rfl) with ⟨p', hp', -⟩ | hfail
    · exact Or.inl ⟨p', hp'.cons hstep fun u hu => if_neg hu⟩
    · rw [List.map_append] at hfail
      exact Or.inr hfail
  · exact Or.inl ⟨_, finishes_ret hfree hbusy⟩

/-- **Every call can return**, whatever the other threads are in the middle of: the thread that
    has the lock goes on until its call is over, and then the thread itself. A fault may end the
    run before that, but it is one the calls meet one after the other. -/
theorem returns (h : Serial code s₀ actions p) {c : Code σ φ Unit}
    (hbusy : p.busy t = some (op, c)) :
    (∃ (more : List (Action ι κ)) (p' : Pool ι κ σ φ), (∀ u op', .call u op' ∉ more) ∧
        more.foldlM (Pool.step code) p = some p' ∧ p'.busy t = none) ∨
      ∃ ops e, (ops = p.order.map Prod.snd ∨ ops = p.order.map Prod.snd ++ [op]) ∧
        serially code s₀ ops = .error e := by
  have hsteps : ∀ (n : Nat) (u v : ι) (op' : κ), Action.call v op' ∉ List.replicate n (.step u) :=
    fun n u v op' hmem => absurd (List.eq_of_mem_replicate hmem) (by simp)
  cases howner : p.owner with
  | none =>
    rcases h.finishes_free howner hbusy with ⟨p', ⟨n, hrun⟩, -, hidle, -⟩ | ⟨e, he⟩
    · exact Or.inl ⟨_, p', hsteps n t, hrun, hidle⟩
    · exact Or.inr ⟨_, e, Or.inr rfl, he⟩
  | some o =>
    obtain ⟨u, m⟩ := o
    obtain ⟨-, pre, op', c', s, -, hbusy', -⟩ := h.inside howner
    rcases h.finishes_owner howner hbusy' with
      ⟨p₁, ⟨⟨n, hrun⟩, hfree, hidle, hothers⟩, horder⟩ | ⟨e, he⟩
    · by_cases hu : t = u
      · subst hu
        exact Or.inl ⟨_, p₁, hsteps n t, hrun, hidle⟩
      · have hbusy₁ : p₁.busy t = some (op, c) := (hothers t hu).trans hbusy
        have h₁ := h.steps (fun v op' hmem => absurd hmem (hsteps n u v op')) hrun
        rcases h₁.finishes_free hfree hbusy₁ with ⟨p', ⟨n', hrun'⟩, -, hidle', -⟩ | ⟨e, he⟩
        · refine Or.inl ⟨List.replicate n (.step u) ++ List.replicate n' (.step t), p', ?_, ?_,
            hidle'⟩
          · intro v op' hmem
            rcases List.mem_append.mp hmem with hmem | hmem
            · exact hsteps n u v op' hmem
            · exact hsteps n' t v op' hmem
          · rw [List.foldlM_append, hrun]
            exact hrun'
        · rw [horder] at he
          exact Or.inr ⟨_, e, Or.inr rfl, he⟩
    · exact Or.inr ⟨_, e, Or.inl rfl, he⟩

end Serial

end Pool
end Lib
