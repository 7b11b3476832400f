import Mathlib.Data.List.Nodup
import Waros.Lib.Bytes

/-!
The entropy pool (`kernel/src/security/crypt/entropy.rs`). SHA3-256 is any
function to 32 bytes; that output blocks differ rests on the absence of
collisions among what was hashed for them. `RDRAND` yields a word or nothing.
-/

namespace Waros.Kernel.Security

open Lib List Bytes

/-- A hash function to 32 bytes. -/
abbrev Sha3 := { hash : List UInt8 → List UInt8 // ∀ input, (hash input).length = 32 }

/-- No two of the inputs have the same hash. -/
def Sha3.NoCollision (sha3 : Sha3) (inputs : List (List UInt8)) : Prop :=
  ∀ x ∈ inputs, ∀ y ∈ inputs, sha3.1 x = sha3.1 y → x = y

structure EntropyPool where
  state : List UInt8
  length_state : state.length = 32
  entropyBits : ℕ
  generation : UInt64

inductive EntropyCall
  | randomBytes (fresh : Option UInt64) (len : ℕ)
  | addEntropy (data : List UInt8)
  | feedTimerJitter (locked : Bool) (ticks : UInt64)

/-- What was hashed for an output block, and the part of it that was written. -/
abbrev OutputBlock := List UInt8 × List UInt8

namespace EntropyPool

variable (sha3 : Sha3) (pool : EntropyPool) (data : List UInt8) (words : Option (List UInt64))
  (ticks : UInt64) {state : List UInt8}

def mixBytes : EntropyPool :=
  { pool with state := sha3.1 (pool.state ++ data), length_state := sha3.2 _ }

/-- The pool of `init`; the words are those that `RDRAND` yields, where there is
one. -/
def new : EntropyPool :=
  let pool : EntropyPool := ⟨replicate 32 0, rfl, 0, 0⟩
  let seeded := match words with
    | some words => { words.foldl (fun p word => mixBytes sha3 p (ofU64 word)) pool with
        entropyBits := 256 }
    | none => pool
  seeded.mixBytes sha3 (ofU64 ticks)

def addEntropyInternal (bits : UInt32) : EntropyPool :=
  { pool.mixBytes sha3 data with
    entropyBits := min (min (pool.entropyBits + bits.toNat) (2 ^ 32 - 1)) 256 }

def outputInput (state : List UInt8) (counter : UInt64) : List UInt8 :=
  state ++ (ofU64 counter ++ "output".toUTF8.toList)

/-- The loop of `generate`, with `left` bytes of the buffer to fill. -/
def outputBlocks (state : List UInt8) (left : ℕ) (counter : UInt64) :
    List OutputBlock × UInt64 :=
  if left = 0 then ([], counter)
  else
    let input := outputInput state counter
    let rest := outputBlocks state (left - min left 32) (counter + 1)
    ((input, (sha3.1 input).take (min left 32)) :: rest.1, rest.2)
termination_by left

def generate (fresh : Option UInt64) (len : ℕ) : List OutputBlock × EntropyPool :=
  let mixed := match fresh with
    | some word => pool.mixBytes sha3 (ofU64 word)
    | none => pool
  let r := outputBlocks sha3 mixed.state len mixed.generation
  (r.1, { mixed with
    generation := r.2
    state := sha3.1 (mixed.state ++ (ofU64 r.2 ++ "reseed".toUTF8.toList))
    length_state := sha3.2 _ })

def call : EntropyCall → List OutputBlock × EntropyPool
  | .randomBytes fresh len => pool.generate sha3 fresh len
  | .addEntropy data => ([], pool.addEntropyInternal sha3 data (.ofNat data.length))
  | .feedTimerJitter locked ticks =>
    ([], if locked then pool else pool.mixBytes sha3 [(ticks &&& 0xFF).toUInt8])

/-- The output blocks of a sequence of calls. -/
def delivered : EntropyPool → List EntropyCall → List OutputBlock
  | _, [] => []
  | pool, c :: calls => (pool.call sha3 c).1 ++ delivered (pool.call sha3 c).2 calls

/-- The counter in the input of an output block. -/
def counterOf (input : List UInt8) : UInt64 := toU64 (field 32 8 input)

lemma counterOf_outputInput (hst : state.length = 32) (counter : UInt64) :
    counterOf (outputInput state counter) = counter := by
  rw [counterOf, outputInput, field, drop_left' hst, take_left' (length_ofU64 counter), toU64_ofU64]

/-- The blocks have consecutive counters from `n` on, and a complete one is the
whole hash. -/
structure Consecutive (n : ℕ) (blocks : List OutputBlock) : Prop where
  counters : blocks.map (fun b => counterOf b.1) = (range' n blocks.length).map UInt64.ofNat
  complete : ∀ b ∈ blocks, b.2.length = 32 → b.2 = sha3.1 b.1

variable {sha3} {n : ℕ}

lemma Consecutive.nil : Consecutive sha3 n [] := ⟨rfl, by simp⟩

lemma Consecutive.append {bs bs' : List OutputBlock} (h : Consecutive sha3 n bs)
    (h' : Consecutive sha3 (n + bs.length) bs') : Consecutive sha3 n (bs ++ bs') := by
  refine ⟨?_, forall_mem_append.2 ⟨h.complete, h'.complete⟩⟩
  rw [map_append, h.counters, h'.counters, ← map_append, length_append, range'_append_1]

lemma Consecutive.single (hst : state.length = 32) (k : ℕ) :
    Consecutive sha3 n [(outputInput state (.ofNat n),
      (sha3.1 (outputInput state (.ofNat n))).take k)] := by
  refine ⟨by simp [counterOf_outputInput hst], forall_mem_singleton.2 fun hlen => ?_⟩
  rw [length_take] at hlen
  exact take_of_length_le (by rw [sha3.2]; omega)

lemma outputBlocks_spec {state : List UInt8} (hst : state.length = 32) (left n : ℕ) :
    let r := outputBlocks sha3 state left (.ofNat n)
    Consecutive sha3 n r.1 ∧ r.2 = .ofNat (n + r.1.length) ∧
      (r.1.flatMap Prod.snd).length = left := by
  induction left using Nat.strong_induction_on generalizing n with
  | _ left ih =>
    rw [outputBlocks]
    split_ifs with h0
    · exact ⟨.nil, rfl, h0.symm⟩
    · rw [← UInt64.ofNat_one, ← UInt64.ofNat_add]
      obtain ⟨hnext, hlast, hlen⟩ := ih (left - min left 32) (by omega) (n + 1)
      refine ⟨(Consecutive.single hst _).append hnext, ?_, ?_⟩
      · rw [hlast, length_cons, add_assoc, add_comm 1]
      · rw [flatMap_cons, length_append, length_take, sha3.2]
        omega

lemma generate_spec {pool : EntropyPool} (h : pool.generation = .ofNat n)
    (fresh : Option UInt64) (len : ℕ) :
    let r := pool.generate sha3 fresh len
    Consecutive sha3 n r.1 ∧ r.2.generation = .ofNat (n + r.1.length) ∧
      (r.1.flatMap Prod.snd).length = len := by
  cases fresh with
  | none =>
    have hspec := @outputBlocks_spec sha3 _ pool.length_state len n
    rwa [← h] at hspec
  | some word =>
    have hspec := @outputBlocks_spec sha3 _
      (pool.mixBytes sha3 (ofU64 word)).length_state len n
    rwa [← h] at hspec

lemma call_spec {pool : EntropyPool} (h : pool.generation = .ofNat n) (c : EntropyCall) :
    Consecutive sha3 n (pool.call sha3 c).1 ∧
      (pool.call sha3 c).2.generation = .ofNat (n + (pool.call sha3 c).1.length) := by
  cases c with
  | randomBytes fresh len => exact (generate_spec h fresh len).imp_right And.left
  | addEntropy => exact ⟨.nil, h⟩
  | feedTimerJitter locked => cases locked <;> exact ⟨.nil, h⟩

lemma delivered_consecutive {pool : EntropyPool} (h : pool.generation = .ofNat n)
    (calls : List EntropyCall) : Consecutive sha3 n (pool.delivered sha3 calls) := by
  induction calls generalizing pool n with
  | nil => exact .nil
  | cons c calls ih =>
    obtain ⟨hcons, hgen⟩ := call_spec h c
    exact hcons.append (ih hgen)

lemma new_generation : (new sha3 words ticks).generation = .ofNat 0 := by
  have hmix (words : List UInt64) pool :
      (words.foldl (fun p word => mixBytes sha3 p (ofU64 word)) pool).generation =
        pool.generation := by
    induction words generalizing pool with
    | nil => rfl
    | cons _ _ ih => exact ih _
  cases words with
  | none => rfl
  | some words => exact hmix words _

theorem Consecutive.nodup {blocks : List OutputBlock} (h : Consecutive sha3 0 blocks)
    (hlen : blocks.length < 2 ^ 64) : (blocks.map fun b => counterOf b.1).Nodup := by
  rw [h.counters]
  refine .map_on (fun i hi j hj hij => ?_) nodup_range'
  rw [mem_range'_1] at hi hj
  have hnat := congrArg UInt64.toNat hij
  simp only [UInt64.toNat_ofNat'] at hnat
  omega

/-- Complete output blocks are pairwise different, and every call fills its
buffer. -/
theorem randomBytes_distinct (sha3 : Sha3) (words : Option (List UInt64)) (ticks : UInt64)
    (calls : List EntropyCall)
    (hcol : sha3.NoCollision (((new sha3 words ticks).delivered sha3 calls).map Prod.fst))
    (hlen : ((new sha3 words ticks).delivered sha3 calls).length < 2 ^ 64) :
    ((((new sha3 words ticks).delivered sha3 calls).map Prod.snd).filter
        fun piece => piece.length = 32).Nodup ∧
      ∀ (pool : EntropyPool) (fresh : Option UInt64) (len : ℕ),
        ((pool.generate sha3 fresh len).1.flatMap Prod.snd).length = len := by
  refine ⟨?_, fun pool fresh len => (generate_spec UInt64.ofNat_toNat.symm fresh len).2.2⟩
  have hcons : Consecutive sha3 0 ((new sha3 words ticks).delivered sha3 calls) :=
    delivered_consecutive (new_generation words ticks) calls
  generalize (new sha3 words ticks).delivered sha3 calls = blocks at hcol hlen hcons
  have hnd : blocks.Nodup := .of_map _ (hcons.nodup hlen)
  rw [filter_map]
  refine .map_on (fun b hb b' hb' heq => ?_) (hnd.filter _)
  obtain ⟨hb, hfull⟩ := mem_filter.1 hb
  obtain ⟨hb', hfull'⟩ := mem_filter.1 hb'
  have hsha := hcons.complete b hb (by simpa using hfull)
  have hsha' := hcons.complete b' hb' (by simpa using hfull')
  -- equal pieces are equal hashes, and without a collision the inputs are the same
  have hfst : b.1 = b'.1 := hcol _ (mem_map_of_mem hb) _ (mem_map_of_mem hb')
    (hsha.symm.trans (heq.trans hsha'))
  exact Prod.ext hfst heq

def counterHash : Sha3 :=
  ⟨fun input => ofU64 (counterOf input) ++ replicate 24 0, fun input => by simp⟩

theorem noCollision_counterHash {pool : EntropyPool} (hpool : pool.generation = 0)
    {calls : List EntropyCall} (hlen : (pool.delivered counterHash calls).length < 2 ^ 64) :
    counterHash.NoCollision ((pool.delivered counterHash calls).map Prod.fst) := by
  intro x hx y hy heq
  have hcounter : counterOf x = counterOf y := by
    have hbytes := (append_inj heq (by simp)).1
    rw [← toU64_ofU64 (counterOf x), hbytes, toU64_ofU64]
  obtain ⟨b, hb, rfl⟩ := mem_map.1 hx
  obtain ⟨b', hb', rfl⟩ := mem_map.1 hy
  have hcons : Consecutive counterHash 0 (pool.delivered counterHash calls) :=
    delivered_consecutive hpool calls
  rw [inj_on_of_nodup_map (hcons.nodup hlen) hb hb' hcounter]

/-- Three blocks of two calls, the last one cut short. -/
theorem randomBytes_distinct_twoCalls :
    let blocks := (new counterHash none 5).delivered counterHash
      [.randomBytes none 32, .addEntropy [1], .randomBytes (some 7) 40]
    (blocks.map fun block => block.2.length) = [32, 32, 8] ∧
      ((blocks.map Prod.snd).filter fun piece => piece.length = 32).Nodup := by
  intro blocks
  have hlens : (blocks.map fun block => block.2.length) = [32, 32, 8] := by
    have h32 state counter : ((outputBlocks counterHash state 32 counter).1.map
        fun block => block.2.length) = [32] := by
      rw [outputBlocks, outputBlocks]
      simp [counterHash]
    have h40 state counter : ((outputBlocks counterHash state 40 counter).1.map
        fun block => block.2.length) = [32, 8] := by
      rw [outputBlocks, outputBlocks, outputBlocks]
      simp [counterHash]
    simp only [blocks, delivered, call, generate, map_append, h32, h40]
    rfl
  have hlen : blocks.length < 2 ^ 64 := by
    rw [← length_map (f := fun block : OutputBlock => block.2.length), hlens]
    decide
  exact ⟨hlens, (randomBytes_distinct counterHash none 5 _
    (noCollision_counterHash (new_generation none 5) hlen) hlen).1⟩

end EntropyPool

end Waros.Kernel.Security
