import Mathlib.Data.Nat.Bitwise
import Waros.Kernel.Net.NetError
import Waros.Lib.Transition

/-!
The split rings of a virtio device (`net/virtio/queue.rs`). The driver writes the
ring of available descriptors and reads the used ring, which the device writes.
-/

namespace Waros.Kernel.Net.Virtio

open Lib List

structure VirtqUsedElem where
  id : ℕ
  len : ℕ
  deriving DecidableEq, Inhabited

/-- The rings are memory that the driver and the device share. -/
structure Virtqueue where
  size : ℕ
  availIdx : ℕ := 0
  availRing : ℕ → ℕ := fun _ => 0
  usedIdx : ℕ := 0
  usedRing : ℕ → VirtqUsedElem := fun _ => ⟨0, 0⟩
  lastUsedIdx : ℕ := 0

def alignUp (value align : ℕ) : ℕ := (value + align - 1) / align * align

/-- The region of the rings is zeroed when `allocate` gives it. -/
def Virtqueue.new (allocate : ℕ → Except NetError Unit) (size : ℕ) : Except NetError Virtqueue :=
  if size = 0 then .error (.initializationFailed "virtqueue size is zero".toList)
  else
    let usedOffset := alignUp (16 * size + (6 + 2 * size)) 4096
    (allocate (usedOffset + (6 + 8 * size))).map fun _ => { size }

namespace Virtqueue

lemma new_eq {allocate : ℕ → Except NetError Unit} {size : ℕ} {queue : Virtqueue}
    (h : new allocate size = .ok queue) : queue = { size } := by
  rw [new] at h
  split_ifs at h
  dsimp only at h
  generalize allocate _ = region at h
  cases region <;> cases h
  rfl

def addAvailable (q : Virtqueue) (id : ℕ) : Except NetError Virtqueue :=
  if q.size ≤ id then .error .invalidFrame
  else .ok { q with
    availRing := Function.update q.availRing (q.availIdx % q.size) id
    availIdx := (q.availIdx + 1) % 65536 }

def popUsed (q : Virtqueue) : Option VirtqUsedElem × Virtqueue :=
  if q.lastUsedIdx = q.usedIdx then (none, q)
  else (some (q.usedRing (q.lastUsedIdx % q.size)),
    { q with lastUsedIdx := (q.lastUsedIdx + 1) % 65536 })

lemma popUsed_cases (q : Virtqueue) : q.popUsed = (none, q) ∨ ∃ element, q.popUsed =
      (some element, { q with lastUsedIdx := (q.lastUsedIdx + 1) % 65536 }) := by
  rw [popUsed]
  split_ifs
  exacts [.inl rfl, .inr ⟨_, rfl⟩]

/-- The device's side of the used ring. -/
def appendUsed (q : Virtqueue) (element : VirtqUsedElem) : Virtqueue :=
  { q with
    usedRing := Function.update q.usedRing (q.usedIdx % q.size) element
    usedIdx := (q.usedIdx + 1) % 65536 }

end Virtqueue

inductive Event
  | addAvailable (id : ℕ)
  | appendUsed (element : VirtqUsedElem)
  | popUsed

/-- The queue, the descriptors that are with the device, and the elements that the
device appended and `pop_used` returned since the start. -/
structure Traffic where
  queue : Virtqueue
  withDevice : List ℕ := []
  appended : List VirtqUsedElem := []
  returned : List VirtqUsedElem := []

namespace Traffic

def step (t : Traffic) : Event → Traffic
  | .addAvailable id =>
    match t.queue.addAvailable id with
    | .error _ => t
    | .ok queue => { t with queue, withDevice := id :: t.withDevice }
  | .appendUsed element =>
    { t with
      queue := t.queue.appendUsed element
      withDevice := t.withDevice.erase element.id
      appended := t.appended ++ [element] }
  | .popUsed =>
    { t with
      queue := t.queue.popUsed.2
      returned := t.returned ++ t.queue.popUsed.1.toList }

/-- The driver has at most `size` descriptors out, up to the ones it popped, and the
device gives back only descriptors that it has. -/
def Allowed (t : Traffic) : Event → Prop
  | .addAvailable id => id < t.queue.size →
    t.withDevice.length + t.appended.length < t.returned.length + t.queue.size
  | .appendUsed element => element.id ∈ t.withDevice
  | .popUsed => True

/-- The used ring holds what was appended and not yet returned. -/
structure Consistent (size : ℕ) (t : Traffic) : Prop where
  size_eq : t.queue.size = size
  used : t.queue.usedIdx = t.appended.length % 65536
  last : t.queue.lastUsedIdx = t.returned.length % 65536
  returned : t.returned <+: t.appended
  outstanding : t.withDevice.length + t.appended.length ≤ t.returned.length + size
  ring : ∀ j element, t.returned.length ≤ j → t.appended[j]? = some element →
    t.queue.usedRing (j % size) = element

section
variable {size : ℕ} {t : Traffic} (ht : t.Consistent size)
include ht

lemma Consistent.addAvailable {id : ℕ} (hok : t.Allowed (.addAvailable id)) :
    (t.step (.addAvailable id)).Consistent size := by
  rw [step]
  split
  · exact ht
  · rename_i queue hqueue
    rw [Virtqueue.addAvailable] at hqueue
    split_ifs at hqueue with hid
    cases hqueue
    have hok := hok (not_le.1 hid)
    obtain ⟨hsize, hused, hlast, hret, -, hring⟩ := ht
    refine ⟨hsize, hused, hlast, hret, ?_, hring⟩
    rw [hsize] at hok
    change (id :: t.withDevice).length + t.appended.length ≤ t.returned.length + size
    rw [length_cons]
    omega

/-- A new element goes to a slot that holds none of the pending ones, since fewer
than `size` are pending. -/
lemma Consistent.appendUsed (hdvd : size ∣ 65536) {element : VirtqUsedElem}
    (hok : t.Allowed (.appendUsed element)) : (t.step (.appendUsed element)).Consistent size := by
  obtain ⟨hsize, hused, hlast, hret, hout, hring⟩ := ht
  have hpos : 0 < t.withDevice.length := length_pos_of_mem hok
  refine ⟨hsize, ?_, hlast, hret.trans (prefix_append _ _), ?_, ?_⟩
  · simp only [step, Virtqueue.appendUsed, hused, length_append, length_singleton]
    omega
  · simp only [step, length_append, length_singleton, length_erase_of_mem hok]
    omega
  · intro j e (hj : t.returned.length ≤ j) he
    simp only [step, Virtqueue.appendUsed, hsize, hused, Nat.mod_mod_of_dvd _ hdvd]
    rcases lt_trichotomy j t.appended.length with hlt | rfl | hgt
    · rw [step, getElem?_append_left hlt] at he
      rw [Function.update_of_ne, hring j e hj he]
      intro hmod
      have hdvd := Nat.dvd_of_mod_eq_zero (Nat.sub_mod_eq_zero_of_mod_eq hmod.symm)
      have hsub := Nat.le_of_dvd (by omega) hdvd
      omega
    · simp_all [step]
    · rw [step, getElem?_eq_none (by rw [length_append, length_singleton]; omega)] at he
      cases he

/-- What a pop gives is the first pending element. -/
lemma Consistent.popUsed_fst (hdvd : size ∣ 65536) (hle : size ≤ 32768) :
    t.queue.popUsed.1 = t.appended[t.returned.length]? := by
  obtain ⟨hsize, hused, hlast, hret, hout, hring⟩ := ht
  have hlen := hret.length_le
  rw [Virtqueue.popUsed]
  split_ifs with heq
  · rw [getElem?_eq_none (by omega)]
  · have hlt : t.returned.length < t.appended.length := by
      rcases hlen.lt_or_eq with hlt | heq'
      exacts [hlt, absurd (by rw [hused, hlast, heq']) heq]
    rw [getElem?_eq_getElem hlt, hsize, hlast, Nat.mod_mod_of_dvd _ hdvd,
      hring _ _ le_rfl (getElem?_eq_getElem hlt)]

lemma Consistent.popUsed (hdvd : size ∣ 65536) (hle : size ≤ 32768) :
    (t.step .popUsed).Consistent size := by
  have hpop := ht.popUsed_fst hdvd hle
  rcases t.queue.popUsed_cases with hnone | ⟨element, hsome⟩
  · simpa [step, hnone] using ht
  · obtain ⟨hsize, hused, hlast, ⟨rest, hrest⟩, hout, hring⟩ := ht
    rw [step, hsome]
    rw [← hrest, getElem?_append_right le_rfl, Nat.sub_self] at hpop
    obtain ⟨rest, rfl⟩ : ∃ rest', rest = element :: rest' := by cases rest <;> simp_all
    refine ⟨hsize, hused, ?_, ⟨rest, by simpa using hrest⟩, ?_, fun j e hj he => ?_⟩
    · simp [hlast]
    · simp
      omega
    · exact hring j e (by simp at hj; omega) he

end

/-- In every run in which the driver and the device keep to the protocol, the elements
that were returned are the first that were appended, and a pop gives the next one. -/
theorem popUsed_run {k size : ℕ} (hk : k ≤ 15) (hsize : size = 2 ^ k)
    {allocate : ℕ → Except NetError Unit} {queue : Virtqueue}
    (hnew : Virtqueue.new allocate size = .ok queue) {events : List Event}
    (hok : StepsOk step Allowed { queue } events) :
    (run step { queue } events).returned <+: (run step { queue } events).appended ∧
      (run step { queue } events).queue.popUsed.1 =
        (run step { queue } events).appended[(run step { queue } events).returned.length]? := by
  have hdvd : size ∣ 65536 := hsize ▸ pow_dvd_pow 2 (by omega : k ≤ 16)
  have hle : size ≤ 32768 := hsize ▸ Nat.pow_le_pow_right (by decide : 0 < 2) hk
  have hinv : (run step { queue } events).Consistent size := by
    refine run_invariant (fun t event ht hevent => ?_) ?_ hok
    · cases event with
      | addAvailable id => exact ht.addAvailable hevent
      | appendUsed element => exact ht.appendUsed hdvd hevent
      | popUsed => exact ht.popUsed hdvd hle
    · obtain rfl := Virtqueue.new_eq hnew
      exact ⟨rfl, rfl, rfl, prefix_rfl, by simp, by simp⟩
  exact ⟨hinv.returned, hinv.popUsed_fst hdvd hle⟩

/-- The device returns two descriptors in the other order; one of them is popped. -/
theorem popUsed_run_two :
    let t := run step { queue := { size := 2 } } [.addAvailable 0, .addAvailable 1,
      .appendUsed ⟨1, 9⟩, .appendUsed ⟨0, 5⟩, .popUsed]
    t.returned = [⟨1, 9⟩] ∧ t.returned <+: t.appended ∧ t.queue.popUsed.1 = some ⟨0, 5⟩ :=
  ⟨rfl, @popUsed_run 1 2 (by decide) rfl (fun _ => .ok ()) { size := 2 } rfl _
    ⟨fun _ => Nat.zero_lt_two, fun _ => Nat.one_lt_two, mem_cons_self, mem_singleton_self 0,
      trivial, trivial⟩⟩

end Traffic

end Waros.Kernel.Net.Virtio
