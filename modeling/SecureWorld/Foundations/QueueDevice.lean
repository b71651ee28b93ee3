import SecureWorld.Foundations.RingBuffer
import SecureWorld.Foundations.Run

/-! # A ring-backed queue device with a level interrupt

`QueueDevice` is a ring together with the level of its interrupt line and a history of what
happened to each element. `offer` appends when there is room and records a drop otherwise, `take`
removes the oldest element. `Ok` is the invariant: indices in range, accepted = removed ++ queued,
line high exactly when something is queued. A device whose operations act on its queue by offers
and takes only (`Acts`) keeps it.
-/
namespace SecureWorld.Foundations
set_option autoImplicit false

inductive QueueEvent (α : Type) where
  | enqueued (x : α)
  | dropped (x : α)
  | popped (x : α)

namespace QueueEvent
variable {α : Type}

@[simp] def enqueued? : QueueEvent α → Option α
  | .enqueued x => some x
  | .dropped _ => none
  | .popped _ => none

@[simp] def dropped? : QueueEvent α → Option α
  | .enqueued _ => none
  | .dropped x => some x
  | .popped _ => none

@[simp] def popped? : QueueEvent α → Option α
  | .enqueued _ => none
  | .dropped _ => none
  | .popped x => some x

@[simp] def offered? : QueueEvent α → Option α
  | .enqueued x => some x
  | .dropped x => some x
  | .popped _ => none

end QueueEvent

structure QueueDevice (α : Type) extends RingBuffer α where
  irq : Bool
  hist : List (QueueEvent α)

namespace QueueDevice
variable {α : Type} (n : ℤ)

/-- The elements accepted so far, oldest first. -/
def enqueued (d : QueueDevice α) : List α := d.hist.filterMap QueueEvent.enqueued?

/-- The elements refused so far because the ring was full. -/
def dropped (d : QueueDevice α) : List α := d.hist.filterMap QueueEvent.dropped?

/-- The elements removed so far. -/
def popped (d : QueueDevice α) : List α := d.hist.filterMap QueueEvent.popped?

/-- The elements offered so far, accepted or refused. -/
def offered (d : QueueDevice α) : List α := d.hist.filterMap QueueEvent.offered?

def offer (d : QueueDevice α) (x : α) : QueueDevice α :=
  if d.count = n then { d with hist := d.hist ++ [.dropped x] }
  else
    { d.toRingBuffer.push n x with
      irq := decide (0 < (d.toRingBuffer.push n x).count)
      hist := d.hist ++ [.enqueued x] }

def take (d : QueueDevice α) : QueueDevice α :=
  if d.count = 0 then d
  else
    { d.toRingBuffer.pop n with
      irq := decide (0 < (d.toRingBuffer.pop n).count)
      hist := d.hist ++ [.popped (d.q d.head)] }

def offers (d : QueueDevice α) (xs : List α) : QueueDevice α := xs.foldl (offer n) d

def empty (x : α) : QueueDevice α := ⟨⟨fun _ => x, 0, 0⟩, false, []⟩

@[simp] theorem offers_nil (d : QueueDevice α) : d.offers n [] = d := rfl

@[simp] theorem offers_cons (d : QueueDevice α) (x : α) (xs : List α) :
    d.offers n (x :: xs) = (d.offer n x).offers n xs := rfl

/-! ## The invariant -/

structure Ok (d : QueueDevice α) : Prop where
  bounded : d.Bounded n
  fifo : d.enqueued = d.popped ++ d.contents n
  line : d.irq = decide (0 < d.count)

theorem ok_empty (hn : 0 < n) (x : α) : (empty x).Ok n where
  bounded := ⟨le_refl 0, hn, le_refl 0, le_of_lt hn⟩
  fifo := by simp [empty, enqueued, popped, RingBuffer.contents]
  line := rfl

theorem Ok.count_lt {d : QueueDevice α} (h : d.Ok n) (hne : d.count ≠ n) : d.count < n :=
  lt_of_le_of_ne h.bounded.count_le hne

theorem Ok.count_pos {d : QueueDevice α} (h : d.Ok n) (hne : d.count ≠ 0) : 0 < d.count := by
  have := h.bounded.count_nonneg
  omega

theorem Ok.offer {d : QueueDevice α} (h : d.Ok n) (x : α) : (d.offer n x).Ok n := by
  by_cases hfull : d.count = n
  · have hoff : d.offer n x = { d with hist := d.hist ++ [.dropped x] } := if_pos hfull
    rw [hoff]
    refine ⟨h.bounded, ?_, h.line⟩
    simpa [enqueued, popped, List.filterMap_cons] using h.fifo
  · have hlt := h.count_lt n hfull
    simp only [QueueDevice.offer, if_neg hfull]
    refine ⟨h.bounded.push n hlt x, ?_, rfl⟩
    have hf := h.fifo
    simp only [enqueued, popped] at hf ⊢
    simp only [List.filterMap_append, List.filterMap_cons, List.filterMap_nil,
      QueueEvent.enqueued?, QueueEvent.popped?, hf, RingBuffer.contents_push n h.bounded hlt,
      List.append_assoc, List.append_nil]

theorem Ok.take {d : QueueDevice α} (h : d.Ok n) : (d.take n).Ok n := by
  by_cases hz : d.count = 0
  · rw [QueueDevice.take, if_pos hz]
    exact h
  · have hpos := h.count_pos n hz
    simp only [QueueDevice.take, if_neg hz]
    refine ⟨h.bounded.pop n hpos, ?_, rfl⟩
    have hf := h.fifo
    rw [RingBuffer.contents_pop n h.bounded hpos] at hf
    simp only [enqueued, popped] at hf ⊢
    simp only [List.filterMap_append, List.filterMap_cons, List.filterMap_nil,
      QueueEvent.enqueued?, QueueEvent.popped?, hf, List.append_assoc, List.append_nil,
      List.cons_append, List.nil_append]

theorem Ok.offers {d : QueueDevice α} (h : d.Ok n) (xs : List α) : (d.offers n xs).Ok n := by
  induction xs generalizing d with
  | nil => exact h
  | cons x xs ih => exact ih (h.offer n x)

/-! ## What a list of offers does -/

theorem offer_of_room {d : QueueDevice α} (hne : d.count ≠ n) (x : α) :
    (d.offer n x).count = d.count + 1 ∧ (d.offer n x).enqueued = d.enqueued ++ [x] ∧
      (d.offer n x).dropped = d.dropped ∧ (d.offer n x).popped = d.popped := by
  simp [offer, if_neg hne, RingBuffer.push, enqueued, dropped, popped, List.filterMap_cons]

theorem offer_of_full {d : QueueDevice α} (hfull : d.count = n) (x : α) :
    (d.offer n x).count = d.count ∧ (d.offer n x).enqueued = d.enqueued ∧
      (d.offer n x).dropped = d.dropped ++ [x] ∧ (d.offer n x).popped = d.popped := by
  simp [offer, if_pos hfull, enqueued, dropped, popped, List.filterMap_cons]

theorem offer_head_count_le (d : QueueDevice α) (x : α) :
    (d.offer n x).head = d.head ∧ d.count ≤ (d.offer n x).count := by
  by_cases hfull : d.count = n
  · simp [offer, if_pos hfull]
  · simp [offer, if_neg hfull, RingBuffer.push]

/-- Offering leaves the front of a nonempty ring alone. -/
theorem offer_front {d : QueueDevice α} (h : d.Ok n) (hc : 0 < d.count) (x : α) :
    (d.offer n x).q (d.offer n x).head = d.q d.head := by
  by_cases hfull : d.count = n
  · simp [offer, if_pos hfull]
  · have hlt := h.count_lt n hfull
    have hb := h.bounded
    have hslot : d.head % n ≠ (d.head + d.count) % n := by
      have hne : (d.head + 0) % n ≠ (d.head + d.count) % n :=
        RingBuffer.slot_ne n hc (by omega)
      rwa [add_zero] at hne
    rw [Int.emod_eq_of_lt hb.head_nonneg hb.head_lt] at hslot
    simp only [offer, if_neg hfull, RingBuffer.push]
    exact Function.update_of_ne hslot _ _

theorem offers_front {d : QueueDevice α} (h : d.Ok n) (hc : 0 < d.count) (xs : List α) :
    0 < (d.offers n xs).count ∧ (d.offers n xs).q (d.offers n xs).head = d.q d.head := by
  induction xs generalizing d with
  | nil => exact ⟨hc, rfl⟩
  | cons x xs ih =>
    have hcount := (offer_head_count_le n d x).2
    obtain ⟨hpos, hfront⟩ := ih (h.offer n x) (by omega)
    exact ⟨hpos, hfront.trans (offer_front n h hc x)⟩

/-- The offers that find room are the first `n - count`; the others are dropped, in order. -/
theorem offers_split {d : QueueDevice α} (h : d.Ok n) (xs : List α) :
    (d.offers n xs).enqueued = d.enqueued ++ xs.take (n - d.count).toNat ∧
      (d.offers n xs).dropped = d.dropped ++ xs.drop (n - d.count).toNat ∧
      (d.offers n xs).popped = d.popped ∧
      (d.offers n xs).count = d.count + (xs.take (n - d.count).toNat).length := by
  induction xs generalizing d with
  | nil => simp
  | cons x xs ih =>
    obtain ⟨he, hd, hp, hc⟩ := ih (h.offer n x)
    rw [offers_cons, he, hd, hp, hc]
    by_cases hfull : d.count = n
    · obtain ⟨hc', he', hd', hp'⟩ := offer_of_full n hfull x
      have hz : (n - d.count).toNat = 0 := by omega
      simp [hc', he', hd', hp', hz]
    · obtain ⟨hc', he', hd', hp'⟩ := offer_of_room n hfull x
      have hlt := h.count_lt n hfull
      have hs : (n - d.count).toNat = (n - (d.count + 1)).toNat + 1 := by omega
      simp only [hc', he', hd', hp', hs, List.take_succ_cons, List.drop_succ_cons,
        List.append_assoc, List.cons_append, List.nil_append, List.length_cons, true_and]
      push_cast
      omega

/-- With room for all of them every offer is enqueued. -/
theorem offers_of_room {d : QueueDevice α} {xs : List α} (hroom : d.count + xs.length ≤ n) :
    (d.offers n xs).enqueued = d.enqueued ++ xs ∧ (d.offers n xs).dropped = d.dropped := by
  induction xs generalizing d with
  | nil => simp
  | cons x xs ih =>
    rw [List.length_cons] at hroom
    push_cast at hroom
    obtain ⟨hc, he, hd, -⟩ := offer_of_room n (d := d) (by omega) x
    obtain ⟨he', hd'⟩ := ih (d := d.offer n x) (by omega)
    rw [offers_cons, he', hd', he, hd, List.append_assoc, List.singleton_append]
    exact ⟨rfl, rfl⟩

@[simp] theorem offers_offered (d : QueueDevice α) (xs : List α) :
    (d.offers n xs).offered = d.offered ++ xs := by
  induction xs generalizing d with
  | nil => simp
  | cons x xs ih =>
    have hoffer : (d.offer n x).offered = d.offered ++ [x] := by
      unfold QueueDevice.offer
      split_ifs <;> simp [offered]
    rw [offers_cons, ih, hoffer, List.append_assoc, List.singleton_append]

@[simp] theorem take_offered (d : QueueDevice α) : (d.take n).offered = d.offered := by
  unfold QueueDevice.take
  split_ifs
  · rfl
  · simp [offered, List.filterMap_cons]

/-- As long as nothing was refused, the elements accepted are the elements offered. -/
theorem enqueued_eq_offered {d : QueueDevice α} (h : d.dropped = []) : d.enqueued = d.offered := by
  have hno : ∀ event ∈ d.hist, event.dropped? = none := by
    simpa [dropped, List.filterMap_eq_nil_iff] using h
  unfold enqueued offered
  refine List.filterMap_congr fun event hevent => ?_
  cases event with
  | enqueued x => rfl
  | dropped x => exact absurd (hno _ hevent) (by simp)
  | popped x => rfl

@[simp] theorem take_enqueued (d : QueueDevice α) : (d.take n).enqueued = d.enqueued := by
  unfold QueueDevice.take
  split_ifs
  · rfl
  · simp [enqueued, List.filterMap_cons]

@[simp] theorem take_dropped (d : QueueDevice α) : (d.take n).dropped = d.dropped := by
  unfold QueueDevice.take
  split_ifs
  · rfl
  · simp [dropped, List.filterMap_cons]

/-- Before anything is accepted the ring is empty. -/
theorem Ok.count_eq_zero {d : QueueDevice α} (h : d.Ok n) (hnone : d.enqueued = []) :
    d.count = 0 := by
  have hcontents : d.contents n = [] := by
    have hfifo := h.fifo
    rw [hnone] at hfifo
    exact (List.append_eq_nil_iff.mp hfifo.symm).2
  have hlen := congrArg List.length hcontents
  simp only [RingBuffer.contents, List.length_map, List.length_range, List.length_nil] at hlen
  have hnonneg := h.bounded.count_nonneg
  omega

/-! ## Devices that act on their queue by offers and takes -/

/-- One operation of a device: any number of offers, or one take. -/
def Acts (d d' : QueueDevice α) : Prop := (∃ xs, d' = d.offers n xs) ∨ d' = d.take n

theorem Acts.refl (d : QueueDevice α) : Acts n d d := .inl ⟨[], rfl⟩

theorem Ok.acts {d d' : QueueDevice α} (h : d.Ok n) (ha : Acts n d d') : d'.Ok n := by
  obtain ⟨xs, rfl⟩ | rfl := ha
  · exact h.offers n xs
  · exact h.take n

end QueueDevice
end SecureWorld.Foundations
