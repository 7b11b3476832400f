import Mathlib.Data.Finset.Image
import Mathlib.Data.Nat.Bitwise
import Mathlib.Tactic.IntervalCases

/-!
The boot protocol of USB keyboards (`kernel/src/hal/usb/hid.rs`): a report holds
the keys that are down, and the key events are the differences between reports.
-/

namespace Waros.Kernel.Hal

open List

structure KeyEvent where
  scancode : UInt8
  keycode : UInt8
  pressed : Bool
  shift : Bool
  ctrl : Bool
  alt : Bool

structure KeyboardBootState where
  modifiers : UInt8 := 0
  pressed : List UInt8 := replicate 6 0
  reportOffset : Option UInt8 := none

def modifierUsageBase : UInt8 := 0xE0

/-- The usage of a modifier, by its bit. -/
def modifierUsage (bit : ℕ) : UInt8 := modifierUsageBase + bit.toUInt8

def validModifierBits : UInt8 := 0xFF

variable (report : List UInt8)

/-- The eight bytes of a report from an offset. -/
def bootView (offset : UInt8) : List UInt8 := (report.drop offset.toNat).take 8

def isValidBootView (offset : UInt8) : Bool :=
  let view := bootView report offset
  !(report.length < offset.toNat + 8) && view.getD 0 0 &&& ~~~validModifierBits == 0 &&
    view.getD 1 0 == 0 &&
    (view.drop 2).all fun usage => usage == 0 || (0x04 ≤ usage && usage ≤ 0xDF)

/-- A bit of a byte. -/
def isSet (byte : UInt8) (bit : ℕ) : Bool := byte &&& 1 <<< bit.toUInt8 != 0

/-- The framing of a report that both framings fit. -/
def chooseOffset : UInt8 :=
  let keys₀ := (bootView report 0).drop 2 |>.any (· != 0)
  let keys₁ := (bootView report 1).drop 2 |>.any (· != 0)
  if keys₀ && !keys₁ then 0
  else if keys₁ && !keys₀ then 1
  else if 9 ≤ report.length && report.getD 2 0 == 0 &&
      report.getD 1 0 &&& ~~~validModifierBits == 0 && report.getD 0 0 != 0 &&
      (range 8).countP (isSet (report.getD 0 0)) ≤ 2 && (keys₁ || (!keys₀ && !keys₁)) then 1
  else if 9 ≤ report.length then 1
  else 0

variable (state : KeyboardBootState)

/-- The eight bytes that are read, and the framing that is remembered. -/
def selectBootReportView : Option (List UInt8 × Option UInt8) :=
  let select (offset : UInt8) := some (bootView report offset, some offset)
  let unknown :=
    match isValidBootView report 0, isValidBootView report 1 with
    | true, false => select 0
    | false, true => select 1
    | true, true => select (chooseOffset report)
    | false, false => none
  match state.reportOffset with
  | none => unknown
  | some offset =>
    let alt := if offset = 0 then 1 else 0
    if isValidBootView report offset then select offset
    else if isValidBootView report alt then select alt
    else unknown

variable (slots : List UInt8) {usage : UInt8}

/-- The distinct keys of the slots, and zeros in the slots that are left. -/
def normalizePressedKeys : List UInt8 :=
  let keys := slots.foldl (fun keys usage =>
    if usage < 0x04 ∨ 0xDF < usage ∨ usage ∈ keys ∨ 6 ≤ keys.length then keys
    else keys ++ [usage]) []
  keys ++ replicate (6 - keys.length) 0

def pushKeyEvent (modifiers usage : UInt8) (pressed : Bool) : KeyEvent where
  scancode := usage
  keycode := usage
  pressed
  shift := isSet modifiers 1 || isSet modifiers 5
  ctrl := isSet modifiers 0 || isSet modifiers 4
  alt := isSet modifiers 2 || isSet modifiers 6

/-- The events that lead from the keys of one state to those of another. -/
def keyEvents (next : KeyboardBootState) : List KeyEvent :=
  ((range 8).filter (isSet (state.modifiers ^^^ next.modifiers))).map (fun bit =>
    pushKeyEvent next.modifiers (modifierUsage bit) (isSet next.modifiers bit)) ++
  ((next.pressed.filter fun usage => usage != 0 && !state.pressed.contains usage).map
    (pushKeyEvent next.modifiers · true) ++
  (state.pressed.filter fun usage => usage != 0 && !next.pressed.contains usage).map
    (pushKeyEvent next.modifiers · false))

/-- The state that a report leads to, if it can be read. -/
def readReport : Option KeyboardBootState :=
  if report.length < 8 then none
  else (selectBootReportView report state).map fun (view, reportOffset) =>
    { modifiers := view.getD 0 0 &&& validModifierBits
      pressed := normalizePressedKeys (view.drop 2)
      reportOffset }

/-- The events of a report, whose number is returned, and the state after it. A
report that cannot be read resets the state. -/
def processKeyboardBootReport : List KeyEvent × KeyboardBootState :=
  match readReport report state with
  | none => ([], {})
  | some next => (keyEvents state next, next)

/-- What an event says about the keys that are down. -/
def KeyEvent.apply (keys : Finset UInt8) (event : KeyEvent) : Finset UInt8 :=
  if event.pressed then insert event.keycode keys else keys.erase event.keycode

/-- Every event changes the keys that are down. -/
def Changes (keys : Finset UInt8) : List KeyEvent → Prop
  | [] => True
  | event :: events => event.apply keys ≠ keys ∧ Changes (event.apply keys) events

def KeyboardBootState.down : Finset UInt8 :=
  ((range 8).filter (isSet state.modifiers)).toFinset.image modifierUsage ∪
    state.pressed.toFinset.erase 0

/-- After each report the events and the state agree on the keys that are down. -/
def Coupled (keys : Finset UInt8) (state : KeyboardBootState) : List (List UInt8) → Prop
  | [] => True
  | report :: reports =>
    let (events, next) := processKeyboardBootReport report state
    Changes keys events ∧ events.foldl KeyEvent.apply keys = next.down ∧
      Coupled next.down next reports

/-- A report that cannot be read comes when no key is down. -/
def ResetWhenUp (state : KeyboardBootState) : List (List UInt8) → Prop
  | [] => True
  | report :: reports =>
    (readReport report state = none → state.down = ∅) ∧
      ResetWhenUp (processKeyboardBootReport report state).2 reports

/-! ### The events between two states -/

/-- Events for exactly the keys that differ, each key once, lead from the old keys to
the new ones. -/
lemma changes_of_diff {old new : Finset UInt8} {events : List KeyEvent}
    (hnd : (events.map KeyEvent.keycode).Nodup)
    (hev : ∀ usage pressed, (∃ event ∈ events, event.keycode = usage ∧ event.pressed = pressed) ↔
      (usage ∈ new ↔ pressed) ∧ (usage ∈ old ↔ pressed = false)) :
    Changes old events ∧ events.foldl KeyEvent.apply old = new := by
  induction events generalizing old with
  | nil =>
    refine ⟨trivial, Finset.ext fun usage => ?_⟩
    by_cases hold : usage ∈ old <;> by_cases hnew : usage ∈ new <;> simp_all
  | cons event events ih =>
    rw [map_cons, nodup_cons] at hnd
    have happ : ∀ usage, usage ∈ event.apply old ↔
        if usage = event.keycode then event.pressed = true else usage ∈ old := by
      intro usage
      unfold KeyEvent.apply
      split_ifs <;> simp_all
    have hhead := (hev event.keycode event.pressed).1 ⟨event, by simp⟩
    have htail := @ih (event.apply old) hnd.2 fun usage pressed => ?_
    · refine ⟨⟨fun heq => ?_, htail.1⟩, htail.2⟩
      have hkey := happ event.keycode
      cases hpre : event.pressed <;> simp_all
    · rw [happ]
      split_ifs with husage
      · cases pressed <;> cases hpre : event.pressed <;> simp_all
      · rw [← hev]
        simp [Ne.symm husage]

lemma isSet_xor (a b : UInt8) {bit : ℕ} (h : bit < 8) :
    isSet (a ^^^ b) bit = (isSet a bit ^^ isSet b bit) := by
  have hmask : (1 <<< bit.toUInt8).toNat = 2 ^ bit := by interval_cases bit <;> rfl
  have hset : ∀ byte, isSet byte bit = byte.toNat.testBit bit := by
    intro byte
    rw [isSet, Bool.eq_iff_iff, bne_iff_ne, ne_eq, ← UInt8.toNat_inj, UInt8.toNat_and, hmask,
      Nat.and_two_pow]
    cases byte.toNat.testBit bit <;> simp
  rw [hset, hset, hset, UInt8.toNat_xor, Nat.testBit_xor]

/-- Slots without a key twice and without the modifiers. -/
structure Normal (slots : List UInt8) : Prop where
  nodup : (slots.filter (· != 0)).Nodup
  le : ∀ usage ∈ slots, usage ≤ 0xDF

lemma normal_normalizePressedKeys : Normal (normalizePressedKeys slots) := by
  unfold normalizePressedKeys
  generalize hkeys : slots.foldl _ _ = keys
  have hinv : keys.Nodup ∧ ∀ usage ∈ keys, usage ≤ 0xDF := by
    rw [← hkeys]
    refine foldlRecOn (motive := fun keys : List UInt8 => keys.Nodup ∧ ∀ usage ∈ keys, usage ≤ 0xDF)
      slots _ (by simp) fun keys h usage _ => ?_
    split_ifs
    · exact h
    · grind [not_lt]
  constructor
  · rw [filter_append, filter_replicate, if_neg (by simp), append_nil]
    exact hinv.1.filter _
  · intro usage hmem
    rcases mem_append.1 hmem with hmem | hmem
    · exact hinv.2 usage hmem
    · rw [eq_of_mem_replicate hmem]
      decide

lemma modifierUsage_inj : ∀ a < 8, ∀ b < 8, modifierUsage a = modifierUsage b → a = b := by decide

lemma not_modifierUsage_le : ∀ bit < 8, ¬modifierUsage bit ≤ 0xDF := by decide

lemma mem_down : usage ∈ state.down ↔
    (∃ bit < 8, modifierUsage bit = usage ∧ isSet state.modifiers bit) ∨
      usage ≠ 0 ∧ usage ∈ state.pressed := by
  simp [KeyboardBootState.down, and_assoc, and_comm]

lemma mem_keyEvents {next : KeyboardBootState} {pressed : Bool} :
    (∃ event ∈ keyEvents state next, event.keycode = usage ∧ event.pressed = pressed) ↔
      (∃ bit < 8, modifierUsage bit = usage ∧
        isSet (state.modifiers ^^^ next.modifiers) bit ∧ isSet next.modifiers bit = pressed) ∨
      usage ≠ 0 ∧ (usage ∈ next.pressed ∧ usage ∉ state.pressed ∧ pressed ∨
        usage ∈ state.pressed ∧ usage ∉ next.pressed ∧ pressed = false) := by
  simp only [keyEvents, mem_append, or_and_right, exists_or]
  simp [pushKeyEvent]
  grind

variable {state : KeyboardBootState} {next : KeyboardBootState}

lemma nodup_keyEvents (hs : Normal state.pressed) (hn : Normal next.pressed) :
    ((keyEvents state next).map KeyEvent.keycode).Nodup := by
  have hcode : ∀ pressed, KeyEvent.keycode ∘ (pushKeyEvent next.modifiers · pressed) = id :=
    fun _ => rfl
  have hkeys : ∀ {slots : List UInt8} (p : UInt8 → Bool), Normal slots →
      (slots.filter fun usage => usage != 0 && p usage).Nodup := fun p h =>
    h.nodup.sublist (monotone_filter_right _ (by simp +contextual))
  rw [keyEvents, map_append, map_append, map_map, map_map, map_map, hcode, hcode, map_id, map_id,
    nodup_append, nodup_append]
  refine ⟨(nodup_range.filter _).map_on ?_, ⟨hkeys _ hn, hkeys _ hs, ?_⟩, ?_⟩
  · intro a ha b hb
    exact modifierUsage_inj a (mem_range.1 (mem_filter.1 ha).1) b (mem_range.1 (mem_filter.1 hb).1)
  · rintro usage husage _ hother rfl
    simp_all
  · simp only [mem_map, mem_append, mem_filter, mem_range]
    rintro _ ⟨bit, ⟨hbit, -⟩, rfl⟩ _ husage rfl
    exact not_modifierUsage_le bit hbit (husage.elim (hn.le _ ·.1) (hs.le _ ·.1))

/-- The events between two states lead from the keys of the first to those of the second. -/
lemma changes_keyEvents (hs : Normal state.pressed) (hn : Normal next.pressed) :
    Changes state.down (keyEvents state next) ∧
      (keyEvents state next).foldl KeyEvent.apply state.down = next.down := by
  refine changes_of_diff (nodup_keyEvents hs hn) fun usage pressed => ?_
  rw [mem_keyEvents, mem_down, mem_down]
  by_cases hmod : ∃ bit < 8, modifierUsage bit = usage
  · obtain ⟨bit, hbit, rfl⟩ := hmod
    have hslot : ∀ {slots : List UInt8}, Normal slots → modifierUsage bit ∉ slots :=
      fun h hmem => not_modifierUsage_le bit hbit (h.le _ hmem)
    have hbits : ∀ P : ℕ → Prop, (∃ other < 8, modifierUsage other = modifierUsage bit ∧ P other) ↔
        P bit :=
      fun P => ⟨fun ⟨other, hother, heq, hP⟩ => modifierUsage_inj other hother bit hbit heq ▸ hP,
        fun hP => ⟨bit, hbit, rfl, hP⟩⟩
    simp only [hslot hs, hslot hn, hbits, isSet_xor _ _ hbit]
    cases isSet state.modifiers bit <;> cases isSet next.modifiers bit <;> cases pressed <;> simp
  · cases pressed <;> grind

lemma down_default : ({} : KeyboardBootState).down = ∅ := by decide

lemma normal_default : Normal ({} : KeyboardBootState).pressed := by
  refine ⟨by decide, fun usage h => ?_⟩
  rw [eq_of_mem_replicate h]
  decide

/-- The events and the state agree after each report exactly when the reports that
cannot be read come when no key is down. -/
theorem coupled_iff (reports : List (List UInt8)) :
    Coupled ∅ {} reports ↔ ResetWhenUp {} reports := by
  suffices hgen : ∀ state : KeyboardBootState, Normal state.pressed →
      (Coupled state.down state reports ↔ ResetWhenUp state reports) by
    exact hgen {} normal_default
  induction reports with
  | nil => exact fun _ _ => .rfl
  | cons report reports ih =>
    intro state hstate
    rw [Coupled, ResetWhenUp, processKeyboardBootReport]
    cases hread : readReport report state with
    | none =>
      simp only [Changes, true_and, foldl_nil, forall_const]
      rw [← ih {} normal_default, down_default]
    | some next =>
      have hnext : Normal next.pressed := by
        unfold readReport at hread
        split_ifs at hread
        obtain ⟨_, -, rfl⟩ := Option.map_eq_some_iff.1 hread
        exact normal_normalizePressedKeys _
      have hevents := changes_keyEvents hstate hnext
      simp [hevents, ih next hnext]

/-- The release of a key is lost with a short report. -/
theorem not_coupled_short : ¬Coupled ∅ {} [[0, 0, 4, 0, 0, 0, 0, 0], []] :=
  fun h => absurd h.2.2.2.1 (by decide)

end Waros.Kernel.Hal
