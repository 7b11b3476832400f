import Waros.Lib.U64
import Waros.Kernel.Fs.Path
import Waros.Lib.Transition

/-!
The block device (`kernel/src/disk/virtio_blk.rs`): numbered sectors of 512
bytes. Requests are checked against the capacity; the requests themselves do
not fail.
-/

namespace Waros.Kernel.Disk

open Lib Fs U64

inductive DiskError
  | outOfBounds
  | bufferTooSmall
  | formatError
  | corruptedData
  | diskFull
  | fileNotFound
  | filesystemError (error : FsError)
  deriving DecidableEq

def sectorSize : ℕ := 512

structure Sector where
  bytes : List UInt8
  length_eq : bytes.length = sectorSize

@[ext] lemma Sector.ext {s t : Sector} (h : s.bytes = t.bytes) : s = t := by
  cases s
  cases h
  rfl

/-- The sector with the given bytes, cut off or filled up with zeros. -/
def Sector.ofBytes (bytes : List UInt8) : Sector where
  bytes := (bytes ++ .replicate sectorSize 0).take sectorSize
  length_eq := by simp

lemma Sector.ofBytes_bytes {bytes : List UInt8} (h : bytes.length = sectorSize) :
    (ofBytes bytes).bytes = bytes :=
  (List.take_append_of_le_length h.ge).trans (List.take_of_length_le h.le)

def Sector.zero : Sector := ofBytes []

/-- The sectors that a request for `count` of them touches, in order. -/
def addresses (sector count : ℕ) : List ℕ := (List.range count).map (wrappingAdd sector)

/-- The slice of a buffer that holds its sector `index`. -/
def slice (buffer : List UInt8) (index : ℕ) : Sector :=
  .ofBytes ((buffer.drop (index * sectorSize)).take sectorSize)

structure VirtioBlk where
  capacitySectors : ℕ
  sectors : ℕ → Sector

namespace VirtioBlk

def validateRequest (device : VirtioBlk) (sector count bufferLen : ℕ) : Except DiskError Unit :=
  if saturatingAdd sector count > device.capacitySectors then .error .outOfBounds
  else if bufferLen < count * sectorSize then .error .bufferTooSmall
  else .ok ()

/-- The sectors with one of them replaced. -/
def store (device : VirtioBlk) (sector : ℕ) (data : Sector) : VirtioBlk :=
  { device with sectors := fun a => if a = sector then data else device.sectors a }

/-- Returns the buffer as the request leaves it. -/
def readSectors (device : VirtioBlk) (sector count : ℕ) (buffer : List UInt8) :
    Except DiskError (List UInt8) :=
  match device.validateRequest sector count buffer.length with
  | .error error => .error error
  | .ok () =>
    .ok ((addresses sector count).flatMap (fun a => (device.sectors a).bytes) ++
      buffer.drop (count * sectorSize))

def writeSectors (device : VirtioBlk) (sector count : ℕ) (buffer : List UInt8) :
    Except DiskError Unit × VirtioBlk :=
  match device.validateRequest sector count buffer.length with
  | .error error => (.error error, device)
  | .ok () =>
    (.ok (), (List.range count).foldl
      (fun device index => device.store (wrappingAdd sector index) (slice buffer index)) device)

/-- A request for one sector with a buffer of its size. -/
def accepts (device : VirtioBlk) (sector : ℕ) : Bool :=
  saturatingAdd sector 1 ≤ device.capacitySectors

def readSector (device : VirtioBlk) (sector : ℕ) : Except DiskError Sector :=
  if device.accepts sector then .ok (device.sectors sector) else .error .outOfBounds

def writeSector (device : VirtioBlk) (sector : ℕ) (data : Sector) :
    Except DiskError Unit × VirtioBlk :=
  if device.accepts sector then (.ok (), device.store sector data)
  else (.error .outOfBounds, device)

variable (device : VirtioBlk) (sector : ℕ) (data : Sector)

@[simp] lemma store_capacity :
    (device.store sector data).capacitySectors = device.capacitySectors := rfl

@[simp] lemma store_sectors (a : ℕ) :
    (device.store sector data).sectors a = if a = sector then data else device.sectors a := rfl

@[simp] lemma store_accepts (a : ℕ) :
    (device.store sector data).accepts a = device.accepts a := rfl

lemma readSector_store_self :
    (device.store sector data).readSector sector =
      if device.accepts sector then .ok data else .error .outOfBounds := by
  simp [readSector]

lemma readSector_store_of_ne {sec a : ℕ} {data : Sector} (h : a ≠ sec) :
    (device.store sec data).readSector a = device.readSector a := by
  simp [readSector, h]

/-- A request that passes the check asks for sectors that pass it one by one. -/
lemma accepts_of_mem_addresses {dev : VirtioBlk} {sec n a : ℕ}
    (h : saturatingAdd sec n ≤ dev.capacitySectors) (ha : a ∈ addresses sec n) : dev.accepts a := by
  obtain ⟨i, hidx, rfl⟩ := List.mem_map.1 ha
  rw [List.mem_range] at hidx
  rw [accepts, decide_eq_true_eq]
  simp only [saturatingAdd, wrappingAdd] at *
  omega

end VirtioBlk

/-!
## The cache

The sector cache in front of the device (`kernel/src/disk/cache.rs`) is
write-through: it never holds anything that the device does not. It is
therefore invisible, whatever it keeps and whichever entry it evicts.
-/

open VirtioBlk List

structure CacheEntry where
  sector : ℕ
  data : Sector
  dirty : Bool
  generation : UInt64

structure BlockCache where
  entries : List CacheEntry
  capacity : ℕ
  generation : UInt64

namespace BlockCache

def new (capacity : ℕ) : BlockCache := ⟨[], capacity, 0⟩

variable (cache : BlockCache) (device : VirtioBlk) (sector count : ℕ) (buffer : List UInt8)

def clear : BlockCache := { cache with entries := [], generation := 0 }

def flush : BlockCache :=
  { cache with entries := cache.entries.map fun entry => { entry with dirty := false } }

def nextGeneration : BlockCache := { cache with generation := cache.generation + 1 }

/-- The first of the entries that were used least recently. -/
def victimIndex : Option ℕ :=
  cache.entries.findIdx? fun entry =>
    cache.entries.all fun other => entry.generation ≤ other.generation

def insert (sector : ℕ) (data : Sector) (dirty : Bool) (generation : UInt64) : BlockCache :=
  match lookup CacheEntry.sector sector cache.entries with
  | some _ =>
    { cache with
      entries := modifyFirst CacheEntry.sector sector
        (fun entry => { entry with data, dirty, generation }) cache.entries }
  | none =>
    if cache.entries.length < cache.capacity then
      { cache with entries := cache.entries ++ [⟨sector, data, dirty, generation⟩] }
    else
      match cache.victimIndex with
      | some index =>
        { cache with entries := cache.entries.set index ⟨sector, data, dirty, generation⟩ }
      | none => cache

/-- A hit is served from the entry, a miss from the device. -/
def readSector (cache : BlockCache) (device : VirtioBlk) (sector : ℕ) :
    Except DiskError Sector × BlockCache :=
  let cache := cache.nextGeneration
  match lookup CacheEntry.sector sector cache.entries with
  | some entry =>
    (.ok entry.data, { cache with
        entries := modifyFirst CacheEntry.sector sector
          (fun entry => { entry with generation := cache.generation }) cache.entries })
  | none =>
    match device.readSector sector with
    | .error error => (.error error, cache)
    | .ok data => (.ok data, cache.insert sector data false cache.generation)

def writeSector (cache : BlockCache) (device : VirtioBlk) (sector : ℕ) (data : Sector) :
    Except DiskError Unit × BlockCache × VirtioBlk :=
  match device.writeSector sector data with
  | (.error error, device) => (.error error, cache, device)
  | (.ok (), device) =>
    let cache := cache.nextGeneration
    (.ok (), cache.insert sector data false cache.generation, device)

/-- The loop of `read_sectors`, with the bytes read so far. -/
def readEach (device : VirtioBlk) : BlockCache → List ℕ → Except DiskError (List UInt8) × BlockCache
  | cache, [] => (.ok [], cache)
  | cache, sector :: sectors =>
    match cache.readSector device sector with
    | (.error error, cache) => (.error error, cache)
    | (.ok data, cache) =>
      match readEach device cache sectors with
      | (.error error, cache) => (.error error, cache)
      | (.ok bytes, cache) => (.ok (data.bytes ++ bytes), cache)

/-- Returns the buffer as the request leaves it. -/
def readSectors : Except DiskError (List UInt8) × BlockCache :=
  if buffer.length < count * sectorSize then (.error .bufferTooSmall, cache)
  else
    match readEach device cache (addresses sector count) with
    | (.error error, cache) => (.error error, cache)
    | (.ok bytes, cache) => (.ok (bytes ++ buffer.drop (count * sectorSize)), cache)

/-- The loop of `write_sectors` over the sectors and what goes into them. -/
def writeEach : BlockCache → VirtioBlk → List (ℕ × Sector) →
    Except DiskError Unit × BlockCache × VirtioBlk
  | cache, device, [] => (.ok (), cache, device)
  | cache, device, (sector, data) :: writes =>
    match cache.writeSector device sector data with
    | (.error error, cache, device) => (.error error, cache, device)
    | (.ok (), cache, device) => writeEach cache device writes

def writeSectors : Except DiskError Unit × BlockCache × VirtioBlk :=
  if buffer.length < count * sectorSize then (.error .bufferTooSmall, cache, device)
  else
    writeEach cache device ((range count).map fun index =>
      (U64.wrappingAdd sector index, slice buffer index))

/-! ### What the cache holds -/

/-- The cached sectors are distinct, not too many, and as on the device. -/
structure Coherent (cache : BlockCache) (device : VirtioBlk) : Prop where
  nodup : (cache.entries.map CacheEntry.sector).Nodup
  length_le : cache.entries.length ≤ cache.capacity
  read_eq : ∀ entry ∈ cache.entries, device.readSector entry.sector = .ok entry.data

@[simp] lemma insert_capacity (c : BlockCache) (sec : ℕ) (data : Sector) (dirty : Bool)
    (generation : UInt64) :
    (c.insert sec data dirty generation).capacity = c.capacity := by
  rw [insert]
  cases lookup CacheEntry.sector sec c.entries with
  | some => rfl
  | none =>
    split_ifs
    · rfl
    · cases c.victimIndex <;> rfl

namespace Coherent

variable {cache : BlockCache} {device : VirtioBlk}

lemma new (cap : ℕ) (dev : VirtioBlk) : Coherent (new cap) dev where
  nodup := nodup_nil
  length_le := Nat.zero_le _
  read_eq := by simp [BlockCache.new]

lemma clear (c : BlockCache) (dev : VirtioBlk) : Coherent c.clear dev where
  nodup := nodup_nil
  length_le := Nat.zero_le _
  read_eq := by simp [BlockCache.clear]

lemma flush (h : Coherent cache device) : Coherent cache.flush device where
  nodup := by
    rw [BlockCache.flush, map_map]
    exact h.nodup
  length_le := by
    rw [BlockCache.flush, length_map]
    exact h.length_le
  read_eq := by
    intro e hent
    obtain ⟨old, hold, rfl⟩ := mem_map.1 hent
    exact h.read_eq old hold

lemma nextGeneration (h : Coherent cache device) : Coherent cache.nextGeneration device :=
  ⟨h.nodup, h.length_le, h.read_eq⟩

variable {sector count : ℕ}

/-- Changing an entry without changing its sector. -/
lemma modify {f : CacheEntry → CacheEntry} (hf : ∀ entry, (f entry).sector = entry.sector)
    (hnd : (cache.entries.map CacheEntry.sector).Nodup)
    (hlen : cache.entries.length ≤ cache.capacity)
    (ho : ∀ entry ∈ cache.entries, entry.sector ≠ sector →
      device.readSector entry.sector = .ok entry.data)
    (hchg : ∀ entry ∈ cache.entries, entry.sector = sector →
      device.readSector sector = .ok (f entry).data) :
    Coherent { cache with entries := modifyFirst CacheEntry.sector sector f cache.entries }
      device where
  nodup := by
    rw [map_key_modifyFirst CacheEntry.sector sector hf]
    exact hnd
  length_le := by
    rw [length_modifyFirst]
    exact hlen
  read_eq := by
    refine forall_mem_modifyFirst CacheEntry.sector hf hnd ho ?_
    intro entry hent hsct
    rw [hf, hsct]
    exact hchg entry hent hsct

/-- Inserting what the device holds restores coherence, also when the cache
still has an older copy. -/
lemma insert {data : Sector} (dirty : Bool) (generation : UInt64)
    (hnd : (cache.entries.map CacheEntry.sector).Nodup)
    (hlen : cache.entries.length ≤ cache.capacity)
    (ho : ∀ entry ∈ cache.entries, entry.sector ≠ sector →
      device.readSector entry.sector = .ok entry.data)
    (hd : device.readSector sector = .ok data) :
    Coherent (cache.insert sector data dirty generation) device := by
  rw [BlockCache.insert]
  cases hl : lookup CacheEntry.sector sector cache.entries with
  | some => exact modify (fun _ => rfl) hnd hlen ho fun _ _ _ => hd
  | none =>
    have hnew := (lookup_eq_none CacheEntry.sector).1 hl
    have hnotMem : sector ∉ cache.entries.map CacheEntry.sector := by
      intro hmem
      obtain ⟨entry, hent, hs⟩ := mem_map.1 hmem
      exact hnew entry hent hs
    have hall : ∀ entry ∈ cache.entries, device.readSector entry.sector = .ok entry.data :=
      fun entry hent => ho entry hent (hnew entry hent)
    split_ifs with hrm
    · refine ⟨?_, ?_, ?_⟩
      · rw [map_append, nodup_append']
        exact ⟨hnd, by simp, disjoint_singleton.2 hnotMem⟩
      · rw [length_append]
        exact hrm
      · intro entry hent
        rcases mem_append.1 hent with hent | hent
        · exact hall entry hent
        · obtain rfl := mem_singleton.1 hent
          exact hd
    · rcases cache.victimIndex with _ | i
      · exact ⟨hnd, hlen, hall⟩
      refine ⟨?_, ?_, ?_⟩
      · rw [map_set]
        exact hnd.set hnotMem
      · rw [length_set]
        exact hlen
      · intro entry hent
        rcases mem_or_eq_of_mem_set hent with hent | rfl
        · exact hall entry hent
        · exact hd

section
variable (h : Coherent cache device)
include h
variable (sec : ℕ) (buf : List UInt8)

lemma readSector :
    ∃ cache', cache.readSector device sec = (device.readSector sec, cache') ∧
      cache'.capacity = cache.capacity ∧ Coherent cache' device := by
  have hnx := h.nextGeneration
  rw [BlockCache.readSector]
  cases hl : lookup CacheEntry.sector sec cache.nextGeneration.entries with
  | some e =>
    have hrd := hnx.read_eq e (lookup_mem hl)
    rw [lookup_key hl] at hrd
    rw [hrd]
    refine ⟨_, rfl, rfl, ?_⟩
    refine modify (fun _ => rfl) hnx.nodup hnx.length_le (fun other ho _ => hnx.read_eq other ho) ?_
    rintro other ho rfl
    exact hnx.read_eq other ho
  | none =>
    cases hrd : device.readSector sec with
    | error => exact ⟨_, rfl, rfl, hnx⟩
    | ok =>
      refine ⟨_, rfl, insert_capacity .., ?_⟩
      exact insert _ _ hnx.nodup hnx.length_le (fun other ho _ => hnx.read_eq other ho) hrd

lemma writeSector (data : Sector) :
    ∃ cache', cache.writeSector device sec data =
        ((device.writeSector sec data).1, cache', (device.writeSector sec data).2) ∧
      cache'.capacity = cache.capacity ∧ Coherent cache' (device.writeSector sec data).2 := by
  rw [BlockCache.writeSector, VirtioBlk.writeSector]
  split_ifs with hacc
  · refine ⟨_, rfl, insert_capacity .., ?_⟩
    refine insert _ _ h.nodup h.length_le ?_ ?_
    · intro e hent hne
      rw [readSector_store_of_ne _ hne]
      exact h.read_eq e hent
    · rw [readSector_store_self, if_pos hacc]
  · exact ⟨_, rfl, rfl, h⟩

/-- The loop of `read_sectors` returns what the device holds. -/
lemma readEach {ss : List ℕ} (hacc : ∀ a ∈ ss, device.accepts a) :
    ∃ cache', readEach device cache ss =
        (.ok (ss.flatMap fun a => (device.sectors a).bytes), cache') ∧
      cache'.capacity = cache.capacity ∧ Coherent cache' device := by
  induction ss generalizing cache with
  | nil => exact ⟨cache, rfl, rfl, h⟩
  | cons a _ ih =>
    obtain ⟨cache₁, hrd, hcap₁, h₁⟩ := h.readSector a
    rw [VirtioBlk.readSector, if_pos (hacc a (by simp))] at hrd
    obtain ⟨cache₂, hr, hcap₂, h₂⟩ := ih h₁ fun b hb => hacc b (by simp [hb])
    refine ⟨cache₂, ?_, hcap₂.trans hcap₁, h₂⟩
    rw [readEach, hrd]
    simp [hr]

/-- The loop of `write_sectors` stores every slice. -/
lemma writeEach {ws : List (ℕ × Sector)} (hacc : ∀ w ∈ ws, device.accepts w.1) :
    ∃ cache', writeEach cache device ws =
        (.ok (), cache', ws.foldl (fun device w => device.store w.1 w.2) device) ∧
      cache'.capacity = cache.capacity ∧
      Coherent cache' (ws.foldl (fun device w => device.store w.1 w.2) device) := by
  induction ws generalizing cache device with
  | nil => exact ⟨cache, rfl, rfl, h⟩
  | cons w _ ih =>
    obtain ⟨cache₁, hwr, hcap₁, h₁⟩ := h.writeSector w.1 w.2
    rw [VirtioBlk.writeSector, if_pos (hacc w (by simp))] at hwr h₁
    obtain ⟨cache₂, hr, hcap₂, h₂⟩ := ih h₁ fun v hv => hacc v (by simp [hv])
    refine ⟨cache₂, ?_, hcap₂.trans hcap₁, h₂⟩
    rw [writeEach, hwr]
    exact hr

section
variable (hreq : U64.saturatingAdd sector count ≤ device.capacitySectors)
include hreq

/-- A request that the device does not refuse is answered as the device answers
it. -/
lemma readSectors :
    ∃ cache', cache.readSectors device sector count buf =
        (device.readSectors sector count buf, cache') ∧
      cache'.capacity = cache.capacity ∧ Coherent cache' device := by
  rw [BlockCache.readSectors, VirtioBlk.readSectors, validateRequest, if_neg (not_lt.2 hreq)]
  by_cases hbuf : buf.length < count * sectorSize
  · rw [if_pos hbuf, if_pos hbuf]
    exact ⟨cache, rfl, rfl, h⟩
  · obtain ⟨cache', hrd, hcap, hcoh⟩ := h.readEach fun a ha =>
      accepts_of_mem_addresses hreq ha
    rw [if_neg hbuf, if_neg hbuf, hrd]
    exact ⟨cache', rfl, hcap, hcoh⟩

lemma writeSectors :
    ∃ cache', cache.writeSectors device sector count buf =
        ((device.writeSectors sector count buf).1, cache',
          (device.writeSectors sector count buf).2) ∧
      cache'.capacity = cache.capacity ∧
      Coherent cache' (device.writeSectors sector count buf).2 := by
  rw [BlockCache.writeSectors, VirtioBlk.writeSectors, validateRequest, if_neg (not_lt.2 hreq)]
  by_cases hbuf : buf.length < count * sectorSize
  · rw [if_pos hbuf, if_pos hbuf]
    exact ⟨cache, rfl, rfl, h⟩
  · have hacc : ∀ w ∈ (range count).map fun i =>
        (U64.wrappingAdd sector i, slice buf i), device.accepts w.1 := by
      intro w hw
      obtain ⟨i, hidx, rfl⟩ := mem_map.1 hw
      exact accepts_of_mem_addresses hreq (mem_map_of_mem hidx)
    obtain ⟨cache', hwr, hcap, hcoh⟩ := h.writeEach hacc
    rw [foldl_map] at hwr hcoh
    rw [if_neg hbuf, if_neg hbuf, hwr]
    exact ⟨cache', rfl, hcap, hcoh⟩

end

end

end Coherent

end BlockCache

end Waros.Kernel.Disk

/-- The device behind its cache. -/
structure Waros.Kernel.Disk where
  device : Waros.Kernel.Disk.VirtioBlk
  cache : Waros.Kernel.Disk.BlockCache

/-! ### Runs -/

namespace Waros.Kernel.Disk

open Lib

/-- The calls of `BlockCache`; `buffer` is the one the caller passes. -/
inductive CacheOp
  | read (sector count : ℕ) (buffer : List UInt8)
  | write (sector count : ℕ) (buffer : List UInt8)
  | flush
  | clear

namespace CacheOp

variable (disk : Disk) (device : VirtioBlk) (op : CacheOp)

/-- The call and the buffer it leaves. -/
def perform : CacheOp → Except DiskError (List UInt8) × Disk
  | .read sector count buffer =>
    let (result, cache) := disk.cache.readSectors disk.device sector count buffer
    (result, ⟨disk.device, cache⟩)
  | .write sector count buffer =>
    let (result, cache, device) := disk.cache.writeSectors disk.device sector count buffer
    (result.map fun _ => buffer, ⟨device, cache⟩)
  | .flush => (.ok [], ⟨disk.device, disk.cache.flush⟩)
  | .clear => (.ok [], ⟨disk.device, disk.cache.clear⟩)

/-- The same call on the device itself. -/
def performUncached : CacheOp → Except DiskError (List UInt8) × VirtioBlk
  | .read sector count buffer => (device.readSectors sector count buffer, device)
  | .write sector count buffer =>
    let (result, device) := device.writeSectors sector count buffer
    (result.map fun _ => buffer, device)
  | .flush | .clear => (.ok [], device)

/-- The device does not refuse the request. -/
def Within (capacitySectors : ℕ) : CacheOp → Prop
  | .read sector count _ | .write sector count _ => U64.saturatingAdd sector count ≤ capacitySectors
  | .flush | .clear => True

lemma performUncached_capacity (dev : VirtioBlk) (op : CacheOp) :
    (op.performUncached dev).2.capacitySectors = dev.capacitySectors := by
  cases op with
  | write sector count buf =>
    rw [performUncached, VirtioBlk.writeSectors]
    cases dev.validateRequest sector count buf.length with
    | error => rfl
    | ok =>
      exact List.foldlRecOn (.range count) _
        (motive := fun d : VirtioBlk => d.capacitySectors = dev.capacitySectors) rfl
        fun _ h _ _ => h
  | _ => rfl

/-- One call on a coherent cache does what it does on the device alone. -/
lemma perform_simulates {disk : Disk} {op : CacheOp}
    (h : disk.cache.Coherent disk.device) (hop : op.Within disk.device.capacitySectors) :
    (op.perform disk).1 = (op.performUncached disk.device).1 ∧
      (op.perform disk).2.device = (op.performUncached disk.device).2 ∧
      (op.perform disk).2.cache.capacity = disk.cache.capacity ∧
      (op.perform disk).2.cache.Coherent (op.perform disk).2.device := by
  cases op with
  | read _ _ buf =>
    obtain ⟨cache', hrd, hcap, hcoh⟩ := h.readSectors buf hop
    rw [perform, hrd]
    exact ⟨rfl, rfl, hcap, hcoh⟩
  | write _ _ buf =>
    obtain ⟨cache', hwr, hcap, hcoh⟩ := h.writeSectors buf hop
    rw [perform, hwr]
    exact ⟨rfl, rfl, hcap, hcoh⟩
  | flush => exact ⟨rfl, rfl, rfl, h.flush⟩
  | clear => exact ⟨rfl, rfl, rfl, .clear _ _⟩

/-- The disk after a call, whatever the call returns. -/
def step : Disk := (op.perform disk).2

def stepUncached : VirtioBlk := (op.performUncached device).2

/-- The cache is coherent, and the device behind it is the device alone. -/
structure Simulates (capacity capacitySectors : ℕ) (disk : Disk) (device : VirtioBlk) : Prop where
  device_eq : disk.device = device
  coherent : disk.cache.Coherent disk.device
  capacity_eq : disk.cache.capacity = capacity
  sectors_eq : device.capacitySectors = capacitySectors

lemma step_simulates {cap capacitySectors : ℕ} (disk : Disk) (dev : VirtioBlk)
    (op : CacheOp) (h : Simulates cap capacitySectors disk dev) (hop : op.Within capacitySectors) :
    Simulates cap capacitySectors (step disk op) (stepUncached dev op) := by
  obtain ⟨rfl, hcoh, rfl, rfl⟩ := h
  obtain ⟨-, hdev, hcap, hcoh'⟩ := perform_simulates hcoh hop
  exact ⟨hdev, hcoh', hcap, performUncached_capacity disk.device op⟩

/-- After any calls that the device does not refuse, the cached sectors are
distinct, at most `capacity` many and as on the device, and every further call
is answered as by the device alone after the same calls. -/
theorem run_transparent (device : VirtioBlk) (capacity : ℕ) {ops : List CacheOp}
    (hops : ∀ op ∈ ops, op.Within device.capacitySectors) :
    Simulates capacity device.capacitySectors (run step ⟨device, .new capacity⟩ ops)
        (run stepUncached device ops) ∧
      ∀ op : CacheOp, op.Within device.capacitySectors →
        (op.perform (run step ⟨device, .new capacity⟩ ops)).1 =
          (op.performUncached (run stepUncached device ops)).1 := by
  have hrun : Simulates capacity device.capacitySectors (run step ⟨device, .new capacity⟩ ops)
      (run stepUncached device ops) :=
    run_simulates step_simulates ⟨rfl, .new capacity device, rfl, rfl⟩ hops
  refine ⟨hrun, ?_⟩
  intro op hop
  rw [← hrun.sectors_eq, ← hrun.device_eq] at hop
  rw [← hrun.device_eq]
  exact (perform_simulates hrun.coherent hop).1

/-- Three writes through a cache of two sectors, and a read of the first. -/
theorem run_transparent_evicting :
    ((CacheOp.read 0 1 (List.replicate sectorSize 0)).perform
        (run step ⟨⟨8, fun _ => .zero⟩, .new 2⟩
          ((List.range 3).map fun a => .write a 1 (List.replicate sectorSize 7)))).1 =
      ((CacheOp.read 0 1 (List.replicate sectorSize 0)).performUncached
        (run stepUncached ⟨8, fun _ => .zero⟩
          ((List.range 3).map fun a => .write a 1 (List.replicate sectorSize 7)))).1 := by
  refine (run_transparent ⟨8, fun _ => .zero⟩ 2 ?_).2 _ (show U64.saturatingAdd 0 1 ≤ 8 by decide)
  intro op hop
  obtain ⟨a, ha, rfl⟩ := List.mem_map.1 hop
  rw [List.mem_range] at ha
  simp only [Within, U64.saturatingAdd]
  omega

end CacheOp

end Waros.Kernel.Disk
