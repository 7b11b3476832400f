import Mathlib.Data.Finset.Card
import Waros.Lib.Lookup
import Waros.Lib.Text
import Waros.Lib.Transition

/-!
The packet filter WarGuard (`kernel/src/security/firewall`): an ordered list of
rules of which the first that matches decides, a table of the connections that
outbound packets opened, and a default policy. The tick counter is read when a
connection is looked up or recorded, and once more when the table is cleaned.
-/

namespace Waros.Kernel.Security

open Lib

inductive Direction
  | inbound
  | outbound
  deriving DecidableEq

inductive Protocol
  | tcp
  | udp
  | icmp
  | any
  deriving DecidableEq

inductive Action
  | allow
  | deny
  deriving DecidableEq

structure FirewallRule where
  id : UInt32
  direction : Direction
  protocol : Protocol
  port : Option UInt16
  action : Action
  description : Str
  hitCount : UInt64

def FirewallRule.matches (rule : FirewallRule) (direction : Direction) (protocol : Protocol)
    (port : UInt16) : Bool :=
  if rule.direction ≠ direction then false
  else if rule.protocol ≠ .any ∧ rule.protocol ≠ protocol then false
  else
    match rule.port with
    | some rulePort => rulePort == port
    | none => true

def defaultRules : List FirewallRule :=
  [{ id := 1, direction := .outbound, protocol := .tcp, port := some 443, action := .allow
     description := "HTTPS outbound".toList, hitCount := 0 },
   { id := 2, direction := .outbound, protocol := .tcp, port := some 80, action := .allow
     description := "HTTP outbound".toList, hitCount := 0 },
   { id := 3, direction := .outbound, protocol := .udp, port := some 53, action := .allow
     description := "DNS outbound".toList, hitCount := 0 },
   { id := 4, direction := .outbound, protocol := .icmp, port := none, action := .allow
     description := "ICMP outbound (ping)".toList, hitCount := 0 },
   { id := 5, direction := .outbound, protocol := .any, port := none, action := .allow
     description := "Allow all outbound".toList, hitCount := 0 },
   { id := 6, direction := .inbound, protocol := .any, port := none, action := .deny
     description := "Deny all inbound".toList, hitCount := 0 }]

/-- The five fields that tell connections apart. -/
structure Flow where
  srcIp : UInt32
  dstIp : UInt32
  srcPort : UInt16
  dstPort : UInt16
  protocol : UInt8
  deriving DecidableEq

structure TrackedConnection where
  flow : Flow
  establishedAt : ℕ
  lastSeen : ℕ
  packets : UInt64

def connectionTimeoutTicks : ℕ := 30000
def maxConnections : ℕ := 1024

/-- A connection that has not timed out: `now.saturating_sub(conn.last_seen)` is
the truncated difference. -/
def TrackedConnection.isFresh (conn : TrackedConnection) (now : ℕ) : Bool :=
  decide (now - conn.lastSeen < connectionTimeoutTicks)

def expire (now : ℕ) (connections : List TrackedConnection) : List TrackedConnection :=
  connections.filter (·.isFresh now)

variable (connections : List TrackedConnection)

/-- The table with room for one more connection. -/
def evict : List TrackedConnection :=
  if connections.length ≥ maxConnections then connections.tail else connections

/-- `track_outbound`; `expire` reads the tick counter again, at `later`. -/
def trackOutbound (flow : Flow) (now later : ℕ) : List TrackedConnection :=
  if (lookup TrackedConnection.flow flow connections).isSome then
    modifyFirst TrackedConnection.flow flow
      (fun conn => { conn with lastSeen := now, packets := conn.packets + 1 }) connections
  else
    evict (expire later connections) ++
      [{ flow := flow, establishedAt := now, lastSeen := now, packets := 1 }]

/-- The flow of the packets that a packet answers. -/
def Flow.mirror (flow : Flow) : Flow :=
  { srcIp := flow.dstIp
    dstIp := flow.srcIp
    srcPort := flow.dstPort
    dstPort := flow.srcPort
    protocol := flow.protocol }

def isEstablishedResponse (flow : Flow) (now : ℕ) : Bool :=
  connections.any fun conn => decide (conn.flow = flow.mirror) && conn.isFresh now

/-! ### The filter (`mod.rs`) -/

structure FirewallStats where
  allowed : UInt64
  denied : UInt64
  inboundAllowed : UInt64
  inboundDenied : UInt64
  outboundAllowed : UInt64
  outboundDenied : UInt64
  tcpAllowed : UInt64
  tcpDenied : UInt64
  udpAllowed : UInt64
  udpDenied : UInt64
  icmpAllowed : UInt64
  icmpDenied : UInt64
  statefulAllows : UInt64

structure WarGuard where
  rules : List FirewallRule
  tracker : List TrackedConnection
  enabled : Bool
  defaultInbound : Action
  defaultOutbound : Action
  stats : FirewallStats
  nextRuleId : UInt32

structure Packet where
  direction : Direction
  protocol : Protocol
  srcIp : UInt32
  dstIp : UInt32
  srcPort : UInt16
  dstPort : UInt16
  deriving DecidableEq

def protocolNumber : Protocol → UInt8
  | .tcp => 6
  | .udp => 17
  | .icmp => 1
  | .any => 0

variable (packet : Packet)

def Packet.flow : Flow :=
  { srcIp := packet.srcIp
    dstIp := packet.dstIp
    srcPort := packet.srcPort
    dstPort := packet.dstPort
    protocol := protocolNumber packet.protocol }

def FirewallRule.matchesPacket (rule : FirewallRule) : Bool :=
  rule.matches packet.direction packet.protocol packet.dstPort

def hitFirst (packet : Packet) : List FirewallRule → List FirewallRule
  | [] => []
  | rule :: rules =>
    if rule.matchesPacket packet then { rule with hitCount := rule.hitCount + 1 } :: rules
    else rule :: hitFirst packet rules

namespace FirewallStats

def zero : FirewallStats := ⟨0, 0, 0, 0, 0, 0, 0, 0, 0, 0, 0, 0, 0⟩

variable (stats : FirewallStats) (direction : Direction) (protocol : Protocol)

def countAllowed (stateful : Bool) : FirewallStats :=
  let stats := { stats with allowed := stats.allowed + 1 }
  let stats := match direction with
    | .inbound => { stats with inboundAllowed := stats.inboundAllowed + 1 }
    | .outbound => { stats with outboundAllowed := stats.outboundAllowed + 1 }
  let stats := match protocol with
    | .tcp => { stats with tcpAllowed := stats.tcpAllowed + 1 }
    | .udp => { stats with udpAllowed := stats.udpAllowed + 1 }
    | .icmp => { stats with icmpAllowed := stats.icmpAllowed + 1 }
    | .any => stats
  if stateful then { stats with statefulAllows := stats.statefulAllows + 1 } else stats

def countDenied : FirewallStats :=
  let stats := { stats with denied := stats.denied + 1 }
  let stats := match direction with
    | .inbound => { stats with inboundDenied := stats.inboundDenied + 1 }
    | .outbound => { stats with outboundDenied := stats.outboundDenied + 1 }
  match protocol with
  | .tcp => { stats with tcpDenied := stats.tcpDenied + 1 }
  | .udp => { stats with udpDenied := stats.udpDenied + 1 }
  | .icmp => { stats with icmpDenied := stats.icmpDenied + 1 }
  | .any => stats

end FirewallStats

namespace WarGuard

/-- `WarGuard::new`: the highest id of the default rules is 6. -/
def new : WarGuard :=
  { rules := defaultRules
    tracker := []
    enabled := true
    defaultInbound := .deny
    defaultOutbound := .allow
    stats := .zero
    nextRuleId := (defaultRules.map FirewallRule.id).foldl max 0 + 1 }

variable (g : WarGuard) (packet : Packet) (direction : Direction) (protocol : Protocol)
  (port : Option UInt16) (action : Action) (description : Str)

def recordDecision (stateful : Bool) : WarGuard :=
  { g with
    stats := match action with
      | .allow => g.stats.countAllowed packet.direction packet.protocol stateful
      | .deny => g.stats.countDenied packet.direction packet.protocol }

def defaultAction : Action :=
  match direction with
  | .inbound => g.defaultInbound
  | .outbound => g.defaultOutbound

/-- The established response that `process_packet` lets through before it looks
at the rules. -/
def isResponse (now : ℕ) : Bool :=
  decide (packet.direction = .inbound) && isEstablishedResponse g.tracker packet.flow now

/-- What `process_packet` does once a rule matches: only an outbound packet that
a rule allows is recorded. -/
def applyRule (rule : FirewallRule) (now later : ℕ) : Action × WarGuard :=
  let g := { g with rules := hitFirst packet g.rules }
  match rule.action with
  | .allow =>
    let g := g.recordDecision packet .allow false
    if packet.direction = .outbound then
      (.allow, { g with tracker := trackOutbound g.tracker packet.flow now later })
    else (.allow, g)
  | .deny => (.deny, g.recordDecision packet .deny false)

/-- `process_packet`, with the decision and the filter after it. -/
def processPacket (now later : ℕ) : Action × WarGuard :=
  if !g.enabled then (.allow, g)
  else if g.isResponse packet now then (.allow, g.recordDecision packet .allow true)
  else
    match g.rules.find? (FirewallRule.matchesPacket packet) with
    | some rule => g.applyRule packet rule now later
    | none =>
      (g.defaultAction packet.direction,
        g.recordDecision packet (g.defaultAction packet.direction) false)

def newRule : FirewallRule :=
  { id := g.nextRuleId
    direction := direction
    protocol := protocol
    port := port
    action := action
    description := description
    hitCount := 0 }

def addRule : UInt32 × WarGuard :=
  let pos := if g.rules.length > 1 then g.rules.length - 1 else g.rules.length
  (g.nextRuleId, { g with
      rules := g.rules.take pos ++
        g.newRule direction protocol port action description :: g.rules.drop pos
      nextRuleId := g.nextRuleId + 1 })

def removeRule (id : UInt32) : Bool × WarGuard :=
  let rules := g.rules.filter (·.id ≠ id)
  (decide (rules.length < g.rules.length), { g with rules := rules })

section
variable {g : WarGuard} {packet : Packet} {now later : ℕ}

/-- What a decision leaves alone: the switch and the policies. -/
structure Frame (g g' : WarGuard) : Prop where
  enabled : g'.enabled = g.enabled
  defaultInbound : g'.defaultInbound = g.defaultInbound
  defaultOutbound : g'.defaultOutbound = g.defaultOutbound

lemma applyRule_spec (g : WarGuard) (p : Packet) (rule : FirewallRule) (now lat : ℕ) :
    (g.applyRule p rule now lat).1 = rule.action ∧ Frame g (g.applyRule p rule now lat).2 ∧
      (g.applyRule p rule now lat).2.tracker =
        if rule.action = .allow ∧ p.direction = .outbound then
          trackOutbound g.tracker p.flow now lat
        else g.tracker := by
  cases hact : rule.action with
  | deny =>
    have happ : g.applyRule p rule now lat =
        (.deny, ({ g with rules := hitFirst p g.rules }).recordDecision p .deny
          false) := by
      simp only [applyRule, hact]
    rw [happ]
    exact ⟨rfl, ⟨rfl, rfl, rfl⟩, rfl⟩
  | allow =>
    simp only [applyRule, hact, true_and]
    split_ifs
    all_goals exact ⟨rfl, ⟨rfl, rfl, rfl⟩, rfl⟩

/-- The first rule that matches, or else the default policy, decides what is not
an established response. -/
lemma processPacket_action (hen : g.enabled) (hresp : g.isResponse packet now = false) :
    (g.processPacket packet now later).1 =
      ((g.rules.find? (FirewallRule.matchesPacket packet)).map FirewallRule.action).getD
        (g.defaultAction packet.direction) := by
  rw [processPacket, if_neg (by simp [hen]), if_neg (by simp [hresp])]
  cases g.rules.find? (FirewallRule.matchesPacket packet) with
  | none => rfl
  | some rule => exact (applyRule_spec g packet rule now later).1

lemma processPacket_response (hen : g.enabled) (hresp : g.isResponse packet now) :
    (g.processPacket packet now later).1 = .allow := by
  rw [processPacket, if_neg (by simp [hen]), if_pos hresp]

lemma processPacket_frame (g : WarGuard) (p : Packet) (now lat : ℕ) :
    Frame g (g.processPacket p now lat).2 := by
  rw [processPacket]
  split_ifs
  · exact ⟨rfl, rfl, rfl⟩
  · exact ⟨rfl, rfl, rfl⟩
  · cases g.rules.find? (FirewallRule.matchesPacket p) with
    | none => exact ⟨rfl, rfl, rfl⟩
    | some rule => exact (applyRule_spec g p rule now lat).2.1

/-- The table changes only by recording an outbound packet that a rule allows,
and every such packet is recorded. -/
lemma processPacket_tracker (hen : g.enabled) (p : Packet) (now lat : ℕ) :
    (g.processPacket p now lat).2.tracker = if p.direction = .outbound ∧
          (g.rules.find? (FirewallRule.matchesPacket p)).map FirewallRule.action = some .allow then
        trackOutbound g.tracker p.flow now lat
      else g.tracker := by
  rw [processPacket, if_neg (by simp [hen])]
  by_cases hresp : g.isResponse p now
  · have hinbo : p.direction = .inbound := by
      simp only [isResponse, Bool.and_eq_true, decide_eq_true_eq] at hresp
      exact hresp.1
    rw [if_pos hresp, if_neg (by simp [hinbo])]
    rfl
  · rw [if_neg hresp]
    cases g.rules.find? (FirewallRule.matchesPacket p) with
    | none => simp [recordDecision]
    | some rule =>
      rw [(applyRule_spec g p rule now lat).2.2]
      simp [and_comm]

end

end WarGuard

/-!
## Runs

Runs of WarGuard: packets are decided, rules are added and removed, and the
tick counter advances. The state of a run remembers the outbound packets that
were allowed, the latest one first.
-/

/-- A packet comes `wait` ticks after the last reading of the tick counter;
`pause` ticks pass before the table is cleaned. -/
inductive GuardCall
  | processPacket (packet : Packet) (wait pause : ℕ)
  | addRule (direction : Direction) (protocol : Protocol) (port : Option UInt16) (action : Action)
      (description : Str)
  | removeRule (id : UInt32)

structure GuardRun where
  guard : WarGuard
  clock : ℕ
  sent : List (Packet × ℕ)

namespace GuardRun

def start : GuardRun := { guard := .new, clock := 0, sent := [] }

/-- The outbound packets allowed so far. -/
def record (sent : List (Packet × ℕ)) (packet : Packet) (now : ℕ) (action : Action) :
    List (Packet × ℕ) :=
  if packet.direction = .outbound ∧ action = .allow then (packet, now) :: sent else sent

def step (s : GuardRun) : GuardCall → GuardRun
  | .processPacket packet wait pause =>
    let now := s.clock + wait
    let result := s.guard.processPacket packet now (now + pause)
    { guard := result.2
      clock := now + pause
      sent := record s.sent packet now result.1 }
  | .addRule direction protocol port action description =>
    { s with guard := (s.guard.addRule direction protocol port action description).2 }
  | .removeRule id => { s with guard := (s.guard.removeRule id).2 }

end GuardRun

/-! ### The rule that decides -/

def FirewallRule.isCatchAll (rule : FirewallRule) : Bool :=
  rule.protocol == .any && rule.port.isNone

/-- The first catch-all rule of a direction, if there is one in the list, has
the given action. -/
def Unshadowed (rules : List FirewallRule) (direction : Direction) (action : Action) : Prop :=
  ∀ rule, rules.find? (fun rule => rule.isCatchAll && rule.direction == direction) = some rule →
    rule.action = action
  deriving Decidable

variable {rule : FirewallRule} {packet : Packet}

lemma matchesPacket_of_isCatchAll (h : rule.isCatchAll) (p : Packet) :
    rule.matchesPacket p = (rule.direction == p.direction) := by
  simp only [FirewallRule.isCatchAll, Bool.and_eq_true, beq_iff_eq, Option.isNone_iff_eq_none] at h
  simp only [FirewallRule.matchesPacket, FirewallRule.matches, h.1, h.2]
  by_cases hdire : rule.direction = p.direction <;> simp [hdire]

lemma direction_of_matchesPacket (h : rule.matchesPacket packet) :
    rule.direction = packet.direction := by
  simp only [FirewallRule.matchesPacket, FirewallRule.matches] at h
  split_ifs at h with hdire
  · exact not_not.1 hdire

/-- Among rules of which only catch-all ones match, the first that matches is the
first catch-all one of the packet's direction. -/
lemma find_matchesPacket {rules : List FirewallRule}
    (h : ∀ rule ∈ rules, rule.matchesPacket packet → rule.isCatchAll) :
    rules.find? (FirewallRule.matchesPacket packet) =
      rules.find? (fun rule => rule.isCatchAll && rule.direction == packet.direction) := by
  induction rules with
  | nil => rfl
  | cons rule _ ih =>
    have hrule : rule.matchesPacket packet =
        (rule.isCatchAll && rule.direction == packet.direction) := by
      cases hcat : rule.isCatchAll with
      | true => rw [matchesPacket_of_isCatchAll hcat, Bool.true_and]
      | false =>
        rw [Bool.false_and, ← Bool.not_eq_true]
        intro hmatch
        exact absurd (h rule (by simp) hmatch) (by simp [hcat])
    rw [List.find?_cons, List.find?_cons, hrule, ih fun other ho => h other (by simp [ho])]

/-- A rule that matches decides a packet exactly when no catch-all rule with the
other action comes before it, given that all others that match are such. -/
lemma WarGuard.processPacket_eq_action_iff {g : WarGuard} {now lat : ℕ}
    (hen : g.enabled) (hresp : g.isResponse packet now = false)
    {rules₁ rules₂ : List FirewallRule} (hrs : g.rules = rules₁ ++ rule :: rules₂)
    (hmatch : rule.matchesPacket packet)
    (hots : ∀ other ∈ rules₁, other.matchesPacket packet → other.isCatchAll) :
    (g.processPacket packet now lat).1 = rule.action ↔
      Unshadowed rules₁ packet.direction rule.action := by
  rw [processPacket_action hen hresp, hrs, List.find?_append,
    find_matchesPacket hots, List.find?_cons_of_pos hmatch, Unshadowed]
  cases rules₁.find? (fun rule => rule.isCatchAll && rule.direction == packet.direction) with
  | none => simp
  | some => simp

namespace GuardRun

/-- The filter is on, and inbound packets are denied by default. -/
def Guarding (s : GuardRun) : Prop := s.guard.enabled = true ∧ s.guard.defaultInbound = .deny

lemma Guarding.step {s : GuardRun} (h : s.Guarding) (call : GuardCall) :
    (s.step call).Guarding := by
  cases call with
  | processPacket packet wait pause =>
    have hfr := WarGuard.processPacket_frame s.guard packet (s.clock + wait)
      (s.clock + wait + pause)
    exact ⟨hfr.enabled.trans h.1, hfr.defaultInbound.trans h.2⟩
  | addRule | removeRule => exact h

lemma guarding_run (cs : List GuardCall) : (run step start cs).Guarding :=
  run_invariant_of_step (fun _ call h => h.step call) cs ⟨rfl, rfl⟩

/-- A rule that was added decides the packets that match it and otherwise only
catch-all rules, exactly when no catch-all rule of their direction with the
other action stands first before it. -/
theorem added_rule_decides_iff (calls more : List GuardCall) (direction : Direction)
    (protocol : Protocol) (port : Option UInt16) (action : Action) (description : Str)
    (packet : Packet) (now later : ℕ) (g : WarGuard) (hg : g = (run step start
      (calls ++ .addRule direction protocol port action description :: more)).guard)
    (rules₁ rules₂ : List FirewallRule) (rule : FirewallRule)
    (hadded : { rule with hitCount := 0 } =
      (run step start calls).guard.newRule direction protocol port action description)
    (hrules : g.rules = rules₁ ++ rule :: rules₂) (hmatches : rule.matchesPacket packet = true)
    (hothers : ∀ other ∈ rules₁ ++ rules₂,
      other.matchesPacket packet = true → other.isCatchAll = true)
    (hresponse : g.isResponse packet now = false) :
    (g.processPacket packet now later).1 = action ↔
      Unshadowed rules₁ packet.direction action := by
  have hen : g.enabled := by
    rw [hg]
    exact (guarding_run _).1
  have hact : rule.action = action := congrArg FirewallRule.action hadded
  have hiff : (g.processPacket packet now later).1 = rule.action ↔
      Unshadowed rules₁ packet.direction rule.action :=
    WarGuard.processPacket_eq_action_iff hen hresponse hrules hmatches
      fun other ho => hothers other (List.mem_append_left _ ho)
  rwa [hact] at hiff

/-- A new rule against an outbound port, and the packet it should stop. -/
def sshOut : GuardCall := .addRule .outbound .tcp (some 22) .deny []

def sshPacket : Packet := ⟨.outbound, .tcp, 1, 2, 40000, 22⟩

/-- The rule stands behind the one that allows everything outbound. -/
theorem added_rule_shadowed :
    let g := (run step start [sshOut]).guard
    let rule := start.guard.newRule .outbound .tcp (some 22) .deny []
    g.rules = defaultRules.take 5 ++ rule :: defaultRules.drop 5 ∧
      rule.matchesPacket sshPacket = true ∧
      (∀ other ∈ defaultRules.take 5 ++ defaultRules.drop 5,
        other.matchesPacket sshPacket = true → other.isCatchAll = true) ∧
      g.enabled = true ∧ g.isResponse sshPacket 0 = false ∧
      (g.processPacket sshPacket 0 0).1 ≠ .deny := by
  refine ⟨rfl, rfl, by decide, rfl, rfl, by decide⟩

/-- An inbound port is opened by a rule before the one that denies all. -/
theorem added_rule_decides_iff_inbound :
    let g := (run step start ([] ++ .addRule .inbound .tcp (some 22) .allow [] :: [])).guard
    let rule := start.guard.newRule .inbound .tcp (some 22) .allow []
    let packet : Packet := ⟨.inbound, .tcp, 2, 1, 40000, 22⟩
    (g.rules = defaultRules.take 5 ++ rule :: defaultRules.drop 5 ∧
      rule.matchesPacket packet = true ∧
      (∀ other ∈ defaultRules.take 5 ++ defaultRules.drop 5,
        other.matchesPacket packet = true → other.isCatchAll = true) ∧
      g.isResponse packet 0 = false) ∧
    ((g.processPacket packet 0 0).1 = .allow ↔
      Unshadowed (defaultRules.take 5) .inbound .allow) :=
  ⟨⟨rfl, rfl, by decide, rfl⟩,
    added_rule_decides_iff [] [] .inbound .tcp (some 22) .allow [] ⟨.inbound, .tcp, 2, 1, 40000, 22⟩
      0 0 _ rfl (defaultRules.take 5) (defaultRules.drop 5) _ rfl rfl rfl (by decide) rfl⟩

end GuardRun

/-!
## The table of connections

The table of connections along a run of WarGuard: it holds outbound packets
that were allowed, none twice and not too many, so an answer comes through
only after its question. The converse depends on which connection is dropped
when the table is full.
-/

open TrackedConnection WarGuard List
open FirewallRule (matchesPacket)

lemma expire_sublist (now : ℕ) (connections : List TrackedConnection) :
    (expire now connections).Sublist connections := filter_sublist

lemma evict_sublist (connections : List TrackedConnection) :
    (evict connections).Sublist connections := by
  rw [evict]
  split_ifs
  · exact tail_sublist connections
  · rfl

lemma length_evict (cs : List TrackedConnection) (h : cs.length ≤ maxConnections) :
    (evict cs).length + 1 ≤ maxConnections := by
  rw [evict]
  split_ifs
  · rw [length_tail]
    have hpos : 0 < maxConnections := by decide
    omega
  · omega

/-- The flows of the table are distinct, and there are at most as many as it may
hold. -/
structure TableOk (connections : List TrackedConnection) : Prop where
  nodup : (connections.map flow).Nodup
  length_le : connections.length ≤ maxConnections

section
variable {connections : List TrackedConnection} {flow : Flow} {now later : ℕ}

/-- A new connection goes to the end of what is left of the table. -/
lemma trackOutbound_of_new (h : flow ∉ connections.map TrackedConnection.flow) :
    trackOutbound connections flow now later = evict (expire later connections) ++
      [{ flow := flow, establishedAt := now, lastSeen := now, packets := 1 }] := by
  have hn : lookup TrackedConnection.flow flow connections = none := by
    apply (lookup_eq_none TrackedConnection.flow).2
    simpa using h
  rw [trackOutbound, hn]
  rfl

/-- A known connection is marked as seen. -/
lemma trackOutbound_of_known (h : flow ∈ connections.map TrackedConnection.flow) :
    trackOutbound connections flow now later = modifyFirst TrackedConnection.flow flow
      (fun conn => { conn with lastSeen := now, packets := conn.packets + 1 }) connections := by
  rw [trackOutbound, if_pos]
  rw [Option.isSome_iff_ne_none]
  intro hn
  obtain ⟨conn, hconn, hfw⟩ := mem_map.1 h
  exact (lookup_eq_none TrackedConnection.flow).1 hn conn hconn hfw

lemma TableOk.trackOutbound (h : TableOk connections) :
    TableOk (trackOutbound connections flow now later) := by
  by_cases hfw : flow ∈ connections.map TrackedConnection.flow
  · rw [trackOutbound_of_known hfw]
    constructor
    · rw [map_key_modifyFirst]
      · exact h.nodup
      · exact fun _ => rfl
    · rw [length_modifyFirst]
      exact h.length_le
  · rw [trackOutbound_of_new hfw]
    have hsub := (evict_sublist (expire later connections)).trans (expire_sublist later connections)
    constructor
    · rw [map_append, map_singleton, nodup_append_comm, singleton_append, nodup_cons]
      exact ⟨fun hmem => hfw ((hsub.map _).subset hmem), h.nodup.sublist (hsub.map _)⟩
    · rw [length_append]
      exact length_evict _ ((expire_sublist later connections).length_le.trans h.length_le)

/-- What is in the table was there before or is the packet at hand. -/
lemma mem_trackOutbound {conn : TrackedConnection}
    (h : conn ∈ trackOutbound connections flow now later) :
    conn ∈ connections ∨ (conn.flow = flow ∧ conn.lastSeen = now) := by
  by_cases hfw : flow ∈ connections.map TrackedConnection.flow
  · rw [trackOutbound_of_known hfw] at h
    rcases mem_modifyFirst _ h with h | ⟨old, -, hold, rfl⟩
    · exact .inl h
    · exact .inr ⟨hold, rfl⟩
  · rw [trackOutbound_of_new hfw, mem_append, mem_singleton] at h
    rcases h with h | rfl
    · exact .inl (((evict_sublist _).trans (expire_sublist _ _)).subset h)
    · exact .inr ⟨rfl, rfl⟩

end

/-! ### Answers come after questions -/

def Packet.request (packet : Packet) : Packet :=
  { direction := .outbound
    protocol := packet.protocol
    srcIp := packet.dstIp
    dstIp := packet.srcIp
    srcPort := packet.dstPort
    dstPort := packet.srcPort }

def Packet.response (packet : Packet) : Packet :=
  { direction := .inbound
    protocol := packet.protocol
    srcIp := packet.dstIp
    dstIp := packet.srcIp
    srcPort := packet.dstPort
    dstPort := packet.srcPort }

lemma protocolNumber_injective : Function.Injective protocolNumber := by
  intro a b h
  cases a <;> cases b <;> first | rfl | cases h

lemma eq_request_of_flow {p question : Packet} (hout : question.direction = .outbound)
    (hfw : question.flow = p.flow.mirror) : question = p.request := by
  obtain ⟨direction, protocol, srcIp, dstIp, srcPort, dstPort⟩ := question
  simp only [Packet.flow, Flow.mirror, Flow.mk.injEq] at hfw
  obtain ⟨rfl, rfl, rfl, rfl, hprot⟩ := hfw
  obtain rfl : direction = .outbound := hout
  rw [protocolNumber_injective hprot]
  rfl

namespace GuardRun

structure Tracked (s : GuardRun) : Prop where
  guarding : s.Guarding
  table : TableOk s.guard.tracker
  seen : ∀ conn ∈ s.guard.tracker,
    ∃ entry ∈ s.sent, entry.1.flow = conn.flow ∧ entry.2 = conn.lastSeen
  sent : ∀ entry ∈ s.sent, entry.1.direction = .outbound ∧ entry.2 ≤ s.clock

lemma tracked_start : start.Tracked :=
  ⟨⟨rfl, rfl⟩, ⟨nodup_nil, Nat.zero_le _⟩, by simp [start, new], by simp [start]⟩

variable {now later : ℕ} {packet : Packet} {sent : List (Packet × ℕ)} {s : GuardRun}

lemma mem_record_of_mem {action : Action}
    {e : Packet × ℕ} (h : e ∈ sent) : e ∈ record sent packet now action := by
  rw [record]
  split_ifs
  · exact mem_cons_of_mem _ h
  · exact h

/-- A packet that a rule allows is recorded on both sides. -/
lemma record_of_tracked (hen : s.guard.enabled) (htr : packet.direction = .outbound ∧
      (s.guard.rules.find? (matchesPacket packet)).map FirewallRule.action = some .allow) :
    record s.sent packet now (s.guard.processPacket packet now later).1 =
      (packet, now) :: s.sent := by
  have hresp : s.guard.isResponse packet now = false := by simp [isResponse, htr.1]
  rw [processPacket_action hen hresp, htr.2, record, if_pos]
  exact ⟨htr.1, rfl⟩

lemma Tracked.step (h : s.Tracked) (call : GuardCall) : (s.step call).Tracked := by
  have hguar := h.guarding.step call
  cases call with
  | addRule | removeRule => exact ⟨hguar, h.table, h.seen, h.sent⟩
  | processPacket packet wait pause =>
    have htrac := processPacket_tracker h.guarding.1 packet (s.clock + wait)
    have hsent : ∀ e ∈ (s.step (.processPacket packet wait pause)).sent,
        e.1.direction = .outbound ∧ e.2 ≤ s.clock + wait + pause := by
      intro e hent
      simp only [GuardRun.step, record] at hent
      split_ifs at hent with hout
      · rcases mem_cons.1 hent with rfl | hent
        · exact ⟨hout.1, by simp⟩
        · have := h.sent e hent
          exact ⟨this.1, by omega⟩
      · have := h.sent e hent
        exact ⟨this.1, by omega⟩
    refine ⟨hguar, ?_, fun conn hconn => ?_, hsent⟩
    · simp only [GuardRun.step, htrac]
      split_ifs
      · exact h.table.trackOutbound
      · exact h.table
    · simp only [GuardRun.step, htrac] at hconn
      split_ifs at hconn with htr
      · rcases mem_trackOutbound hconn with hconn | ⟨hfw, hse⟩
        · obtain ⟨e, hent, hs⟩ := h.seen conn hconn
          exact ⟨e, mem_record_of_mem hent, hs⟩
        · refine ⟨(packet, s.clock + wait), ?_, hfw.symm, hse.symm⟩
          simp only [GuardRun.step]
          rw [record_of_tracked h.guarding.1 htr]
          exact mem_cons_self
      · obtain ⟨e, hent, hs⟩ := h.seen conn hconn
        exact ⟨e, mem_record_of_mem hent, hs⟩

/-- Without a rule that allows inbound packets, only established responses come
through. -/
lemma isResponse_of_allow (h : s.Guarding) (hinbo : packet.direction = .inbound)
    (hrs : ∀ rule ∈ s.guard.rules, ¬(rule.direction = .inbound ∧ rule.action = .allow))
    (hall : (s.guard.processPacket packet now later).1 = .allow) :
    s.guard.isResponse packet now := by
  by_contra hresp
  rw [Bool.not_eq_true] at hresp
  rw [processPacket_action h.1 hresp] at hall
  cases hf : s.guard.rules.find? (matchesPacket packet) with
  | none =>
    rw [hf, hinbo, defaultAction, h.2] at hall
    cases hall
  | some rule =>
    rw [hf] at hall
    have hdire := direction_of_matchesPacket (find?_some hf)
    exact hrs rule (mem_of_find?_eq_some hf) ⟨hdire.trans hinbo, hall⟩

/-- Answers come only after their questions, and the table holds each connection
once and not too many. -/
theorem response_after_request (calls : List GuardCall) :
    let s := run step start calls
    (∀ packet wait pause, packet.direction = .inbound →
      (∀ rule ∈ s.guard.rules, ¬(rule.direction = .inbound ∧ rule.action = .allow)) →
      (s.guard.processPacket packet (s.clock + wait) (s.clock + wait + pause)).1 = .allow →
      ∃ tick, (packet.request, tick) ∈ s.sent ∧ tick ≤ s.clock + wait ∧
        s.clock + wait - tick < 30000) ∧
      s.guard.tracker.length ≤ 1024 ∧ (s.guard.tracker.map TrackedConnection.flow).Nodup := by
  intro s
  have h : s.Tracked := run_invariant_of_step (fun _ call h => h.step call) calls tracked_start
  refine ⟨fun packet wait pause hinbo hrs hall => ?_, h.table.length_le, h.table.nodup⟩
  have hresp := isResponse_of_allow h.guarding hinbo hrs hall
  simp only [isResponse, isEstablishedResponse, Bool.and_eq_true, any_eq_true,
    decide_eq_true_eq, isFresh] at hresp
  obtain ⟨-, conn, hconn, hfw, hfs⟩ := hresp
  obtain ⟨⟨question, tick⟩, hent, hs, htick⟩ := h.seen conn hconn
  obtain ⟨hout, hclo⟩ := h.sent _ hent
  refine ⟨tick, ?_, by dsimp only at hclo; omega, ?_⟩
  · rw [← eq_request_of_flow hout (hs.trans hfw)]
    exact hent
  · dsimp only at htick
    rw [htick]
    exact hfs

/-- An outbound packet, and the answer to it. -/
theorem response_after_request_ssh :
    let s := run step start [.processPacket sshPacket 5 0]
    let answer : Packet := ⟨.inbound, .tcp, 2, 1, 22, 40000⟩
    ((∀ rule ∈ s.guard.rules, ¬(rule.direction = .inbound ∧ rule.action = .allow)) ∧
      (s.guard.processPacket answer (s.clock + 7) (s.clock + 7)).1 = .allow) ∧
    ∃ tick, (answer.request, tick) ∈ s.sent ∧ tick ≤ s.clock + 7 ∧ s.clock + 7 - tick < 30000 := by
  have hrs : ∀ rule ∈ (run step start [.processPacket sshPacket 5 0]).guard.rules,
      ¬(rule.direction = .inbound ∧ rule.action = .allow) := by decide
  exact ⟨⟨hrs, rfl⟩,
    (response_after_request [.processPacket sshPacket 5 0]).1 ⟨.inbound, .tcp, 2, 1, 22, 40000⟩ 7 0
      rfl hrs rfl⟩

/-! ### Questions are answered -/

def lastSent (sent : List (Packet × ℕ)) (flow : Flow) : Option ℕ :=
  (sent.find? fun entry => entry.1.flow = flow).map Prod.snd

def sentSince (sent : List (Packet × ℕ)) (flow : Flow) : List Flow :=
  (sent.takeWhile fun entry => entry.1.flow ≠ flow).map fun entry => entry.1.flow

lemma lastSent_cons (p : Packet) (now : ℕ) (sent : List (Packet × ℕ)) (flow : Flow) :
    lastSent ((p, now) :: sent) flow = if p.flow = flow then some now else lastSent sent flow := by
  rw [lastSent]
  by_cases h : p.flow = flow
  · simp [h]
  · simp [h, lastSent]

lemma sentSince_cons (p : Packet) (now : ℕ) (sent : List (Packet × ℕ)) {flow : Flow}
    (h : p.flow ≠ flow) :
    sentSince ((p, now) :: sent) flow = p.flow :: sentSince sent flow := by
  simp [sentSince, h]

/-- An outbound packet is not let through by the default policy alone, and the
connection that is dropped for it from a full table was last seen before all
others in the table. -/
def DropsOldest (s : GuardRun) : GuardCall → Prop
  | .processPacket packet wait pause =>
    packet.direction = .outbound →
      (s.guard.rules.find? (matchesPacket packet) = none → s.guard.defaultOutbound = .deny) ∧
      ∀ first rest, packet.flow ∉ s.guard.tracker.map flow →
        expire (s.clock + wait + pause) s.guard.tracker = first :: rest →
        maxConnections ≤ rest.length + 1 →
        ∀ conn ∈ rest, conn.flow ∈ sentSince s.sent first.flow
  | _ => True

/-- Every answer comes through that arrives in time, unless too many other
connections were opened since. -/
def Answers (s : GuardRun) : Prop :=
  ∀ packet tick, (packet, tick) ∈ s.sent → ∀ wait pause, s.clock + wait - tick < 30000 →
    (sentSince s.sent packet.flow).toFinset.card < 1024 →
    (s.guard.processPacket packet.response (s.clock + wait) (s.clock + wait + pause)).1 = .allow

/-- The table knows when its connections were last seen, and what is not in it
is too old or was followed by too many others. -/
structure Remembers (s : GuardRun) : Prop where
  tracked : s.Tracked
  lastSeen : ∀ conn ∈ s.guard.tracker, lastSent s.sent conn.flow = some conn.lastSeen
  forgotten : ∀ flow tick, lastSent s.sent flow = some tick →
    flow ∉ s.guard.tracker.map TrackedConnection.flow →
    tick + connectionTimeoutTicks ≤ s.clock ∨
      maxConnections ≤ (sentSince s.sent flow).toFinset.card
  sorted : s.sent.Pairwise fun later earlier => earlier.2 ≤ later.2

lemma remembers_start : start.Remembers :=
  ⟨tracked_start, by simp [start, new], by simp [start, lastSent], .nil⟩

section
variable {s : GuardRun} {packet : Packet} {now later : ℕ} {conn : TrackedConnection}

/-- What the table drops for a new connection is too old, or all the others in
the table came after it. -/
lemma Remembers.dropped (h : s.Remembers) (hnew : packet.flow ∉ s.guard.tracker.map flow)
    (hoks : ∀ first rest, expire later s.guard.tracker = first :: rest →
      maxConnections ≤ rest.length + 1 → ∀ conn ∈ rest, conn.flow ∈ sentSince s.sent first.flow)
    (hconn : conn ∈ s.guard.tracker) (hgo : conn ∉ evict (expire later s.guard.tracker)) :
    conn.lastSeen + connectionTimeoutTicks ≤ later ∨
      maxConnections ≤ (packet.flow :: sentSince s.sent conn.flow).toFinset.card := by
  by_cases hfs : conn.isFresh later
  case neg =>
    simp only [isFresh, decide_eq_true_eq] at hfs
    have hpos : 0 < connectionTimeoutTicks := by decide
    exact .inl (by omega)
  right
  have hexp : conn ∈ expire later s.guard.tracker := mem_filter.2 ⟨hconn, hfs⟩
  rw [evict] at hgo
  split_ifs at hgo with hfu
  · rcases htab : expire later s.guard.tracker with _ | ⟨first, rest⟩
    · rw [htab] at hexp; cases hexp
    rw [htab] at hexp hgo hfu
    obtain rfl : conn = first := (mem_cons.1 hexp).resolve_right hgo
    have hots := hoks conn rest htab hfu
    have hsub : rest.Sublist s.guard.tracker :=
      (sublist_cons_self conn rest).trans (htab ▸ expire_sublist later s.guard.tracker)
    have hnd : (packet.flow :: rest.map flow).Nodup :=
      nodup_cons.2 ⟨fun hmem => hnew ((hsub.map _).subset hmem),
        h.tracked.table.nodup.sublist (hsub.map _)⟩
    have hcard := toFinset_card_of_nodup hnd
    rw [length_cons, length_map] at hcard
    refine hfu.trans (hcard.symm.le.trans (Finset.card_le_card ?_))
    intro flow hfw
    rw [mem_toFinset, mem_cons] at hfw ⊢
    refine hfw.imp_right fun hfw => ?_
    obtain ⟨other, ho, rfl⟩ := mem_map.1 hfw
    exact hots other ho
  · exact absurd hexp hgo

lemma lastSeen_trackOutbound (h : s.Remembers)
    (hconn : conn ∈ trackOutbound s.guard.tracker packet.flow now later) :
    lastSent ((packet, now) :: s.sent) conn.flow = some conn.lastSeen := by
  rw [lastSent_cons]
  split_ifs with hs
  · -- only one entry of the table has the flow, and it was marked or is new
    by_cases hfw : packet.flow ∈ s.guard.tracker.map flow
    · rw [trackOutbound_of_known hfw] at hconn
      have hse := forall_mem_modifyFirst flow
        (P := fun conn => packet.flow = conn.flow → now = conn.lastSeen) (by exact fun _ => rfl)
        h.tracked.table.nodup (fun _ _ hne heq => absurd heq.symm hne) (fun _ _ _ _ => rfl)
        conn hconn
      exact congrArg some (hse hs)
    · rw [trackOutbound_of_new hfw, mem_append, mem_singleton] at hconn
      rcases hconn with hconn | rfl
      · have hmem := ((evict_sublist _).trans (expire_sublist _ _)).subset hconn
        exact absurd (mem_map.2 ⟨conn, hmem, hs.symm⟩) hfw
      · rfl
  · rcases mem_trackOutbound hconn with hconn | ⟨hfw, -⟩
    · exact h.lastSeen conn hconn
    · exact absurd hfw.symm hs

lemma Remembers.forgotten_track (h : s.Remembers) (hnow : s.clock ≤ now) (hlat : now ≤ later)
    (hoks : ∀ first rest, packet.flow ∉ s.guard.tracker.map flow →
      expire later s.guard.tracker = first :: rest →
      maxConnections ≤ rest.length + 1 → ∀ conn ∈ rest, conn.flow ∈ sentSince s.sent first.flow)
    {flow : Flow} {tick : ℕ} (hla : lastSent ((packet, now) :: s.sent) flow = some tick)
    (hgo : flow ∉ (trackOutbound s.guard.tracker packet.flow now later).map
      TrackedConnection.flow) :
    tick + connectionTimeoutTicks ≤ later ∨
      maxConnections ≤ (sentSince ((packet, now) :: s.sent) flow).toFinset.card := by
  have hne : packet.flow ≠ flow := by
    rintro rfl
    apply hgo
    by_cases hfw : packet.flow ∈ s.guard.tracker.map flow
    · rw [trackOutbound_of_known hfw, map_key_modifyFirst]
      · exact hfw
      · exact fun _ => rfl
    · rw [trackOutbound_of_new hfw]
      simp
  rw [lastSent_cons, if_neg hne] at hla
  rw [sentSince_cons _ _ _ hne]
  by_cases hfw : flow ∈ s.guard.tracker.map TrackedConnection.flow
  · -- the flow was in the table and was dropped by this packet
    obtain ⟨conn, hconn, rfl⟩ := mem_map.1 hfw
    have hnew : packet.flow ∉ s.guard.tracker.map flow := by
      intro hkno
      rw [trackOutbound_of_known hkno, map_key_modifyFirst] at hgo
      · exact hgo hfw
      · exact fun _ => rfl
    rw [trackOutbound_of_new hnew, map_append, mem_append, not_or] at hgo
    obtain rfl : conn.lastSeen = tick := Option.some.inj ((h.lastSeen conn hconn).symm.trans hla)
    exact h.dropped hnew (fun first rest => hoks first rest hnew) hconn
      fun hmem => hgo.1 (mem_map_of_mem hmem)
  · -- it was gone before
    rcases h.forgotten flow tick hla hfw with hold | hmany
    · exact .inl (by omega)
    · refine .inr (hmany.trans (Finset.card_le_card fun other ho => ?_))
      rw [mem_toFinset] at ho ⊢
      exact mem_cons_of_mem _ ho

/-- A packet that is allowed but not recorded would have been let through by the
default policy. -/
lemma sent_of_not_tracked (hen : s.guard.enabled)
    (hpol : packet.direction = .outbound → s.guard.rules.find? (matchesPacket packet) = none →
      s.guard.defaultOutbound = .deny)
    (htr : ¬(packet.direction = .outbound ∧
      (s.guard.rules.find? (matchesPacket packet)).map FirewallRule.action = some .allow)) :
    record s.sent packet now (s.guard.processPacket packet now later).1 = s.sent := by
  rw [record, if_neg]
  rintro ⟨hout, hall⟩
  have hresp : s.guard.isResponse packet now = false := by simp [isResponse, hout]
  rw [processPacket_action hen hresp] at hall
  cases hf : s.guard.rules.find? (matchesPacket packet) with
  | none =>
    rw [hf, hout, defaultAction, hpol hout hf] at hall
    cases hall
  | some =>
    rw [hf] at hall htr
    exact htr ⟨hout, congrArg some hall⟩

end

lemma Remembers.step (h : s.Remembers) {call : GuardCall}
    (hok : s.DropsOldest call) : (s.step call).Remembers := by
  have htr' := h.tracked.step call
  cases call with
  | addRule | removeRule => exact ⟨htr', h.lastSeen, h.forgotten, h.sorted⟩
  | processPacket packet wait pause =>
    have htrac := processPacket_tracker h.tracked.guarding.1 packet (s.clock + wait)
      (s.clock + wait + pause)
    by_cases htr : packet.direction = .outbound ∧
        (s.guard.rules.find? (matchesPacket packet)).map FirewallRule.action = some .allow
    · rw [if_pos htr] at htrac
      have hsent : (s.step (.processPacket packet wait pause)).sent =
          (packet, s.clock + wait) :: s.sent :=
        record_of_tracked h.tracked.guarding.1 htr
      refine ⟨htr', fun conn hconn => ?_, fun flow tick hla hgo => ?_, ?_⟩
      · rw [hsent]
        exact lastSeen_trackOutbound h (htrac ▸ hconn)
      · rw [hsent] at hla ⊢
        refine h.forgotten_track (Nat.le_add_right _ _) (Nat.le_add_right _ _) (hok htr.1).2 hla ?_
        rw [← htrac]
        exact hgo
      · rw [hsent, pairwise_cons]
        refine ⟨fun e hent => ?_, h.sorted⟩
        have hclo := (h.tracked.sent e hent).2
        omega
    · rw [if_neg htr] at htrac
      have hsent : (s.step (.processPacket packet wait pause)).sent = s.sent :=
        sent_of_not_tracked h.tracked.guarding.1 (fun hout => (hok hout).1) htr
      refine ⟨htr', fun conn hconn => ?_, fun flow tick hla hgo => ?_, ?_⟩
      · rw [hsent]
        exact h.lastSeen conn (htrac ▸ hconn)
      · rw [hsent] at hla ⊢
        have hgo' : flow ∉ s.guard.tracker.map TrackedConnection.flow := by
          rw [← htrac]
          exact hgo
        refine (h.forgotten flow tick hla hgo').imp_left fun hold => ?_
        exact hold.trans ((Nat.le_add_right _ _).trans (Nat.le_add_right _ _))
      · rw [hsent]
        exact h.sorted

/-- The last time a flow was sent is not before any other time. -/
lemma exists_lastSent
    (hsrt : sent.Pairwise fun later earlier => earlier.2 ≤ later.2) {tick : ℕ}
    (h : (packet, tick) ∈ sent) : ∃ last, lastSent sent packet.flow = some last ∧ tick ≤ last := by
  induction sent with
  | nil => cases h
  | cons e _ ih =>
    obtain ⟨other, now⟩ := e
    rw [pairwise_cons] at hsrt
    rw [lastSent_cons]
    rcases mem_cons.1 h with heq | hmem
    · cases heq
      exact ⟨tick, if_pos rfl, le_rfl⟩
    · split_ifs
      · exact ⟨now, rfl, hsrt.1 _ hmem⟩
      · exact ih hsrt.2 hmem

lemma Remembers.answers (h : s.Remembers) : s.Answers := by
  intro packet tick hent wait pause hint hfew
  obtain ⟨last, hla, hle⟩ := exists_lastSent h.sorted hent
  apply processPacket_response h.tracked.guarding.1
  by_cases hfw : packet.flow ∈ s.guard.tracker.map flow
  · obtain ⟨conn, hconn, hs⟩ := mem_map.1 hfw
    have hse := h.lastSeen conn hconn
    rw [hs, hla, Option.some.injEq] at hse
    simp only [isResponse, isEstablishedResponse, Bool.and_eq_true, any_eq_true,
      decide_eq_true_eq, isFresh]
    refine ⟨rfl, conn, hconn, hs, ?_⟩
    rw [connectionTimeoutTicks]
    omega
  · rcases h.forgotten packet.flow last hla hfw with hold | hmany
    · rw [connectionTimeoutTicks] at hold
      omega
    · exact absurd hfew (not_lt.2 hmany)

/-- As long as only the connection seen least recently is dropped and no packet
is let through by the default policy, all answers come through. -/
theorem answers_of_dropsOldest {calls : List GuardCall} (h : StepsOk step DropsOldest start calls)
    (n : ℕ) : (run step start (calls.take n)).Answers :=
  (run_invariant (fun _ _ h hok => h.step hok) remembers_start (h.take n)).answers

/-- Without the rule that allows everything outbound, the default policy lets a
packet through that is not recorded. -/
theorem not_answers_default :
    ¬(run step start [.removeRule 5, .processPacket sshPacket 0 0]).Answers := by
  intro h
  have hans := h sshPacket 0 (by decide) 0 0 (by decide) (by decide)
  cases hans

/-- Two packets of one connection, and a rule that is added in between. -/
theorem answers_of_dropsOldest_twice :
    StepsOk step DropsOldest start [.processPacket sshPacket 0 0, sshOut,
      .processPacket sshPacket 10 0] ∧
    ∀ n, (run step start ([GuardCall.processPacket sshPacket 0 0, sshOut,
      .processPacket sshPacket 10 0].take n)).Answers := by
  have hok : StepsOk step DropsOldest start [.processPacket sshPacket 0 0, sshOut,
      .processPacket sshPacket 10 0] := by
    refine ⟨fun _ => ⟨fun h => absurd h (by decide), fun first rest _ htab => ?_⟩, trivial,
      fun _ => ⟨fun h => absurd h (by decide), fun first rest hnew => ?_⟩, trivial⟩
    · cases htab
    · exact absurd (by decide) hnew
  exact ⟨hok, fun n => answers_of_dropsOldest hok n⟩

end GuardRun

end Waros.Kernel.Security
