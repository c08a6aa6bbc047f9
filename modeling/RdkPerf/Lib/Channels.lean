import RdkPerf.Lib.Store

/-!
# Bounded channels and a name for one of them

A channel holds at most so many messages, and gives them out in the order they came in. Channels
are made under one name and found by it. Taking the name away does not unmake the channel: whoever
has found it still sends to it and receives from it. That is what makes two channels of one name
possible, and a channel that has a sender and will never have a receiver.

A channel that is full refuses; whether the sender waits or gives up is not for the channel to say.
-/

namespace Lib

/-- The messages sent and not received, oldest first. -/
structure Channel (α : Type) where
  capacity : Nat
  messages : List α
  fits : messages.length ≤ capacity

namespace Channel

variable {α : Type}

def empty (capacity : Nat) : Channel α := ⟨capacity, [], Nat.zero_le _⟩

def push (c : Channel α) (a : α) : Option (Channel α) :=
  if h : c.messages.length < c.capacity then
    some ⟨c.capacity, c.messages ++ [a], by simpa using h⟩
  else
    none

def pop (c : Channel α) : Channel α :=
  ⟨c.capacity, c.messages.tail, by simpa using Nat.le_trans (Nat.sub_le _ _) c.fits⟩

theorem push_eq_some {c c' : Channel α} {a : α} (h : c.push a = some c') :
    c.messages.length < c.capacity ∧ c'.messages = c.messages ++ [a] ∧
      c'.capacity = c.capacity := by
  unfold push at h
  split at h
  · next hlt =>
    obtain rfl := Option.some.inj h
    exact ⟨hlt, rfl, rfl⟩
  · exact absurd h (by simp)

end Channel

/-- The channels that were made, and the one that has the name. -/
structure Channels (α : Type) where
  objects : Store (Channel α)
  named : Option Nat
  named_live : ∀ {q}, named = some q → objects.get q ≠ none

namespace Channels

variable {α : Type}

def init : Channels α := ⟨.empty, none, by simp⟩

def unlink (k : Channels α) : Channels α := { k with named := none, named_live := by simp }

/-- Find the channel of the name, or make it. -/
def create (k : Channels α) (capacity : Nat) : Channels α × Nat :=
  match k.named with
  | some q => (k, q)
  | none =>
    ({ objects := k.objects.alloc (.empty capacity)
       named := some k.objects.next
       named_live := fun h => by simp [Option.some.inj h] }, k.objects.next)

/-- Put another channel at `q`, if there is one. -/
def put (k : Channels α) (q : Nat) (c : Channel α) : Channels α where
  objects := k.objects.modify q fun _ => c
  named := k.named
  named_live h := by
    rw [Store.get_modify]
    split
    · simp [k.named_live h]
    · exact k.named_live h

/-- `none` where the channel is full, or is not there. -/
def send (k : Channels α) (q : Nat) (a : α) : Option (Channels α) := do
  let c ← k.objects.get q
  let c ← c.push a
  some (k.put q c)

def receive (k : Channels α) (q : Nat) : Option (α × Channels α) := do
  let c ← k.objects.get q
  let a ← c.messages.head?
  some (a, k.put q c.pop)

/-- What is in the channel; nothing where there is none. -/
def messages (k : Channels α) (q : Nat) : List α := (k.objects.get q).elim [] Channel.messages

section Lemmas

variable {k k' : Channels α} {q q' : Nat} {a : α}

@[simp] theorem unlink_objects (k : Channels α) : k.unlink.objects = k.objects := rfl
@[simp] theorem unlink_named (k : Channels α) : k.unlink.named = none := rfl
@[simp] theorem unlink_messages (k : Channels α) : k.unlink.messages q = k.messages q := rfl
@[simp] theorem put_named (k : Channels α) (c : Channel α) : (k.put q c).named = k.named := rfl

/-- The channel found or made has the name. -/
@[simp] theorem create_named (k : Channels α) (capacity : Nat) :
    (k.create capacity).1.named = some (k.create capacity).2 := by
  unfold create
  split
  · assumption
  · rfl

/-- Making a channel changes no other. -/
@[simp] theorem create_messages (k : Channels α) (capacity : Nat) :
    (k.create capacity).1.messages q = k.messages q := by
  unfold create
  split
  · rfl
  · show ((k.objects.alloc (Channel.empty capacity)).get q).elim [] Channel.messages = _
    rw [Store.get_alloc]
    split
    · next hq =>
      rw [messages, hq, Store.get_next]
      rfl
    · rfl

/-- What is made is empty. -/
theorem create_empty (capacity : Nat) (h : k.named = none) :
    k.messages (k.create capacity).2 = [] := by
  unfold create
  rw [h, messages, Store.get_next]
  rfl

/-- **A message goes to the end of its channel**, if there is room, and to no other. -/
theorem send_eq_some (h : k.send q a = some k') : k'.named = k.named ∧
    k'.messages q = k.messages q ++ [a] ∧ ∀ q', q' ≠ q → k'.messages q' = k.messages q' := by
  obtain ⟨c, hc, h⟩ := Option.bind_eq_some_iff.mp h
  obtain ⟨c', hc', h⟩ := Option.bind_eq_some_iff.mp h
  obtain rfl := Option.some.inj h
  obtain ⟨-, hpush, -⟩ := Channel.push_eq_some hc'
  refine ⟨rfl, ?_, fun q' hq' => ?_⟩
  · simp [messages, put, hc, hpush]
  · simp [messages, put, hq']

/-- **The oldest message is received**, and the other channels are as they were. -/
theorem receive_eq_some (h : k.receive q = some (a, k')) : k'.named = k.named ∧
    k.messages q = a :: k'.messages q ∧ ∀ q', q' ≠ q → k'.messages q' = k.messages q' := by
  obtain ⟨c, hc, h⟩ := Option.bind_eq_some_iff.mp h
  obtain ⟨b, hb, h⟩ := Option.bind_eq_some_iff.mp h
  obtain ⟨rfl, rfl⟩ := Prod.mk.inj (Option.some.inj h)
  obtain ⟨rest, hrest⟩ := List.head?_eq_some_iff.mp hb
  refine ⟨rfl, ?_, fun q' hq' => ?_⟩
  · simp [messages, put, hc, hrest, Channel.pop]
  · simp [messages, put, hq']

/-- A channel stays made. -/
theorem put_made {c : Channel α} (h : k.objects.get q ≠ none) :
    (k.put q' c).objects.get q ≠ none := by
  unfold put
  rw [Store.get_modify]
  split
  · simp [h]
  · exact h

theorem send_made (h : k.send q' a = some k') (hq : k.objects.get q ≠ none) :
    k'.objects.get q ≠ none := by
  obtain ⟨c, -, h⟩ := Option.bind_eq_some_iff.mp h
  obtain ⟨c', -, h⟩ := Option.bind_eq_some_iff.mp h
  obtain rfl := Option.some.inj h
  exact put_made hq

theorem receive_made (h : k.receive q' = some (a, k')) (hq : k.objects.get q ≠ none) :
    k'.objects.get q ≠ none := by
  obtain ⟨c, -, h⟩ := Option.bind_eq_some_iff.mp h
  obtain ⟨b, -, h⟩ := Option.bind_eq_some_iff.mp h
  obtain ⟨rfl, rfl⟩ := Prod.mk.inj (Option.some.inj h)
  exact put_made hq

theorem create_made (capacity : Nat) (hq : k.objects.get q ≠ none) :
    (k.create capacity).1.objects.get q ≠ none := by
  unfold create
  split
  · exact hq
  · dsimp only
    rw [Store.get_alloc]
    split
    · simp
    · exact hq

/-- A channel that has lost the name does not get it back. -/
theorem create_ne (capacity : Nat) (hq : k.objects.get q ≠ none) (hnamed : k.named ≠ some q) :
    (k.create capacity).2 ≠ q := by
  unfold create
  split
  · next q' hq' =>
    rintro rfl
    exact hnamed hq'
  · rintro rfl
    exact hq (Store.get_next _)

end Lemmas

/-- Every channel has room for as much. -/
def Capacity (k : Channels α) (capacity : Nat) : Prop :=
  ∀ q c, k.objects.get q = some c → c.capacity = capacity

namespace Capacity

variable {α : Type} {k k' : Channels α} {capacity q : Nat} {a : α}

theorem init (capacity : Nat) : (Channels.init : Channels α).Capacity capacity := by
  intro q c hc
  exact absurd hc (by simp [Channels.init])

theorem length_le (h : k.Capacity capacity) (q : Nat) : (k.messages q).length ≤ capacity := by
  unfold messages
  cases hc : k.objects.get q with
  | none => exact Nat.zero_le _
  | some c =>
    rw [← h q c hc]
    exact c.fits

theorem unlink (h : k.Capacity capacity) : k.unlink.Capacity capacity := h

theorem create (h : k.Capacity capacity) : (k.create capacity).1.Capacity capacity := by
  unfold Channels.create
  split
  · exact h
  · intro q c hc
    have hc' : (k.objects.alloc (.empty capacity)).get q = some c := hc
    rw [Store.get_alloc] at hc'
    split at hc'
    · obtain rfl := Option.some.inj hc'
      rfl
    · exact h q c hc'

theorem put {c₀ c : Channel α} (h : k.Capacity capacity) (hc₀ : k.objects.get q = some c₀)
    (hc : c.capacity = c₀.capacity) : (k.put q c).Capacity capacity := by
  intro q' c' hc'
  have hc'' : (k.objects.modify q fun _ => c).get q' = some c' := hc'
  rw [Store.get_modify] at hc''
  split at hc''
  · obtain ⟨-, -, rfl⟩ := Option.map_eq_some_iff.mp hc''
    rw [hc, h q c₀ hc₀]
  · exact h q' c' hc''

theorem send (h : k.Capacity capacity) (hs : k.send q a = some k') : k'.Capacity capacity := by
  obtain ⟨c, hc, hs⟩ := Option.bind_eq_some_iff.mp hs
  obtain ⟨c', hc', hs⟩ := Option.bind_eq_some_iff.mp hs
  obtain rfl := Option.some.inj hs
  exact h.put hc (Channel.push_eq_some hc').2.2

theorem receive (h : k.Capacity capacity) (hr : k.receive q = some (a, k')) :
    k'.Capacity capacity := by
  obtain ⟨c, hc, hr⟩ := Option.bind_eq_some_iff.mp hr
  obtain ⟨b, -, hr⟩ := Option.bind_eq_some_iff.mp hr
  obtain ⟨rfl, rfl⟩ := Prod.mk.inj (Option.some.inj hr)
  exact h.put hc rfl

end Capacity

end Channels
end Lib
