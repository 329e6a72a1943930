import Cmcs.Headers
import Cmcs.MatchTable
import Cmcs.SwitchRun
import Mathlib.Tactic

/-!
# Packets through the pipeline

What a switch sends on for a packet on the wire: the tables select the actions, the
marker decides, the traffic manager accepts the packet or not, and the deparser writes
the headers back.  A packet which travels through several switches is found to be the
same packet at each of them.
-/

namespace Cmcs

namespace DataPlane

/-- An action of `ipv4_lpm` with its parameters. -/
inductive Forwarding
  | ipv4Forward (dstAddr : BitVec 48) (port : BitVec 9)
  | drop
  | noAction
  deriving DecidableEq

def Forwarding.action : Forwarding → MyIngress.LpmAction
  | .ipv4Forward _ port => .ipv4Forward port
  | .drop => .drop
  | .noAction => .noAction

/-- What the action does to the headers. -/
def Forwarding.rewrite : Forwarding → Headers → Headers
  | .ipv4Forward dstAddr _, hdr =>
      { ethernet := hdr.ethernet.map fun eth =>
          { eth with srcAddr := eth.dstAddr, dstAddr := dstAddr }
        ipv4 := hdr.ipv4.map fun ip => { ip with ttl := ip.ttl - 1 } }
  | _, hdr => hdr

/-- The entries of the two tables.  A miss in `ipv4_lpm` runs its default action. -/
structure Tables where
  ipv4Lpm : List (MatchTable.LpmEntry 32 Forwarding) := []
  defaultAction : Forwarding := .drop
  vnClassifier : List ((BitVec 32 × BitVec 32) × MyIngress.VnAction) := []

namespace Tables

def route (t : Tables) (dstAddr : BitVec 32) : Forwarding :=
  (MatchTable.lpm t.ipv4Lpm dstAddr).getD t.defaultAction

def classify (t : Tables) (srcAddr dstAddr : BitVec 32) : Option MyIngress.VnAction :=
  MatchTable.exact t.vnClassifier (srcAddr, dstAddr)

/-- What `MyIngress` reads of a packet on the wire. -/
def packet (t : Tables) (timestamp : BitVec 48) (bits : List Bool) : MyIngress.Packet :=
  match (parse bits).1.ipv4 with
  | some ip =>
      { ipv4Valid := true
        ipv4Lpm := (t.route ip.dstAddr).action
        vnClassifier := t.classify ip.srcAddr ip.dstAddr
        ingressGlobalTimestamp := timestamp
        packetLength := BitVec.ofNat 32 (bits.length / 8) }
  | none =>
      { ipv4Valid := false
        ipv4Lpm := .noAction
        vnClassifier := none
        ingressGlobalTimestamp := timestamp
        packetLength := BitVec.ofNat 32 (bits.length / 8) }

/-- The headers behind the ingress pipeline. -/
def ingress (t : Tables) (hdr : Headers) : Headers :=
  match hdr.ipv4 with
  | some ip => (t.route ip.dstAddr).rewrite hdr
  | none => hdr

end Tables

/-- A switch as a packet finds it.  Its egress buffers have gone through any calls. -/
structure Hop where
  tables : Tables
  registers : MyIngress.Registers
  timestamp : BitVec 48
  packetId : ℕ
  nbVns : ℕ
  nbVns_pos : 0 < nbVns
  weights : SimpleSwitch.VnWeights nbVns
  egressBuffers : QueueingLogicVN SimpleSwitch.Packet 4 nbVns
  coherent : egressBuffers.Coherent weights.config
  now : Ticks

namespace Hop

variable (hop : Hop) (bits : List Bool)

def marked : MyIngress.Marked :=
  (MyIngress.apply hop.registers (hop.tables.packet hop.timestamp bits)).2

def received : SimpleSwitch.Packet where
  packetId := hop.packetId
  headers := hop.tables.packet hop.timestamp bits
  phv := hop.marked bits

/-- Whether `push_front` returns 1 for the packet. -/
def accepts : Bool :=
  (hop.egressBuffers.step hop.weights.config (SimpleSwitch.enqueue hop.nbVns
    (hop.marked bits).egressSpec.toNat (hop.received bits) hop.now)).any fun (_, calls) =>
      calls.any fun call => call.result matches .pushed true

/-- What the deparser writes behind the pipeline. -/
def deparsed : List Bool :=
  deparse (computeChecksum (hop.tables.ingress (parse bits).1)) (parse bits).2

/-- The packet which the switch sends on, unless it drops it or rejects it. -/
def transmit : Option (List Bool) :=
  if (hop.marked bits).egressSpec = MyIngress.dropPort then none
  else if hop.accepts bits then some (hop.deparsed bits) else none

/-- The entry which `get_logical_queue` finds or creates for the egress port. -/
def logicalQueue : LogicalQueueInfo hop.nbVns :=
  let q := (hop.marked bits).egressSpec.toNat
  (hop.egressBuffers.getLogicalQueue hop.weights.config q (hop.weights.config.mapToWorker q)
    hop.now).2

/-- The queue which takes the packet: that of its VN, or of VN 0. -/
def virtualQueue : VNQueueInfo :=
  (hop.logicalQueue bits).vnQueues ⟨SimpleSwitch.vnIdOf hop.nbVns (hop.marked bits),
    SimpleSwitch.vnIdOf_lt hop.nbVns_pos _⟩

def Full : Prop := (hop.virtualQueue bits).capacity ≤ (hop.virtualQueue bits).size

end Hop

/-- Through one switch after the other. -/
def travel : List Hop → List Bool → Option (List Bool)
  | [], bits => some bits
  | hop :: hops, bits => (hop.transmit bits).bind (travel hops)

/-- How many of the switches run `ipv4_forward` for the address. -/
def forwards (hops : List Hop) (dstAddr : BitVec 32) : ℕ :=
  hops.countP fun hop => (hop.tables.route dstAddr).action matches .ipv4Forward _

variable {hop : Hop} {hops : List Hop} {bits out payload : List Bool} {eth : Ethernet} {ip : Ipv4}

theorem egressSpec_apply (regs : MyIngress.Registers) (x : MyIngress.Packet) :
    (MyIngress.apply regs x).2.egressSpec = if x.ipv4Valid then x.ipv4Lpm.egressSpec else 0 := by
  unfold MyIngress.apply
  cases x.ipv4Valid with
  | false => rfl
  | true =>
      simp only [if_true]
      cases x.vnClassifier with
      | none => rfl
      | some action =>
          simp only
          split <;> rfl

theorem parse_encode (htype : eth.etherType = typeIpv4) (ip : Ipv4) (payload : List Bool) :
    parse (ethernet.encode eth ++ ipv4.encode ip ++ payload) =
      ({ ethernet := some eth, ipv4 := some ip }, payload) :=
  parse_deparse htype ip payload

theorem received_phv (hop : Hop) (bits : List Bool) : (hop.received bits).phv = hop.marked bits :=
  rfl

theorem accepts_iff (hop : Hop) (bits : List Bool) :
    hop.accepts bits = true ↔ ¬hop.Full bits := by
  have hv : vnIndex (SimpleSwitch.vnIdOf hop.nbVns (hop.marked bits)) =
      some (⟨SimpleSwitch.vnIdOf hop.nbVns (hop.marked bits),
        SimpleSwitch.vnIdOf_lt hop.nbVns_pos _⟩ : Fin hop.nbVns) :=
    QueueingLogicVN.vnIndex_eq_some.mpr rfl
  obtain ⟨-, p, hport, hinfo⟩ := QueueingLogicVN.getLogicalQueue_advances hop.coherent
    (hop.marked bits).egressSpec.toNat hop.now
  have hfull : p.full ⟨SimpleSwitch.vnIdOf hop.nbVns (hop.marked bits),
      SimpleSwitch.vnIdOf_lt hop.nbVns_pos _⟩ = true ↔ hop.Full bits := by
    rw [Port.full, decide_eq_true_iff, hinfo]
    rfl
  rw [← hfull, Hop.accepts, SimpleSwitch.enqueue, QueueingLogicVN.step, received_phv, hv,
    QueueingLogicVN.pushFront_eq hv hport hinfo]
  simp only [Option.bind_eq_bind, Option.bind_some, Option.any_some, List.any_cons, List.any_nil,
    Bool.or_false]
  cases p.full ⟨SimpleSwitch.vnIdOf hop.nbVns (hop.marked bits),
    SimpleSwitch.vnIdOf_lt hop.nbVns_pos _⟩ <;> simp

theorem transmit_eq_some : hop.transmit bits = some out ↔
    (hop.marked bits).egressSpec ≠ MyIngress.dropPort ∧ ¬hop.Full bits ∧
      out = hop.deparsed bits := by
  rw [Hop.transmit, Option.ite_none_left_eq_some, Option.ite_none_right_eq_some, accepts_iff,
    Option.some.injEq, eq_comm (a := out)]

theorem deparsed_of_none (hnone : (parse bits).1.ipv4 = none) : hop.deparsed bits = bits := by
  have hsame : ∀ hdr : Headers, hdr.ipv4 = none →
      computeChecksum (hop.tables.ingress hdr) = hdr := by
    rintro ⟨eth, ip⟩ hip
    obtain rfl : ip = none := hip
    rfl
  rw [Hop.deparsed, hsame _ hnone, deparse_parse]

/-- The header behind one switch. -/
def Forwarding.sent (f : Forwarding) (ip : Ipv4) : Ipv4 :=
  let ip := { ip with ttl := if f.action matches .ipv4Forward _ then ip.ttl - 1 else ip.ttl }
  { ip with hdrChecksum := csum16 ip.checksumData }

/-- What becomes of an IPv4 packet: new addresses on the link, a time to live which counts
the forwarding and a new checksum. -/
theorem deparsed_ipv4 (hop : Hop) (htype : eth.etherType = typeIpv4)
    (hparse : parse bits = ({ ethernet := some eth, ipv4 := some ip }, payload)) :
    ∃ eth', eth'.etherType = typeIpv4 ∧ hop.deparsed bits =
      ethernet.encode eth' ++ ipv4.encode ((hop.tables.route ip.dstAddr).sent ip) ++ payload := by
  have hdeparsed : hop.deparsed bits =
      deparse (computeChecksum ((hop.tables.route ip.dstAddr).rewrite
        { ethernet := some eth, ipv4 := some ip })) payload := by
    rw [Hop.deparsed, hparse]
    rfl
  rw [hdeparsed]
  cases hop.tables.route ip.dstAddr with
  | ipv4Forward dstAddr port => exact ⟨⟨dstAddr, eth.dstAddr, eth.etherType⟩, htype, rfl⟩
  | drop => exact ⟨eth, htype, rfl⟩
  | noAction => exact ⟨eth, htype, rfl⟩

/-! ## Paths -/

/-- The header after `n` rewrites, with some checksum. -/
def Ipv4.hopped (ip : Ipv4) (n : ℕ) (hdrChecksum : BitVec 16) : Ipv4 :=
  { ip with ttl := ip.ttl - BitVec.ofNat 8 n, hdrChecksum := hdrChecksum }

/-- What has travelled through the switches, and what came in. -/
structure Delivered (hops : List Hop) (bits out : List Bool) : Prop where
  length : out.length = bits.length
  same : ∀ t timestamp, Tables.packet t timestamp out = t.packet timestamp bits
  notIpv4 : (parse bits).1.ipv4 = none → out = bits
  ipv4 : ∀ eth ip payload,
    parse bits = ({ ethernet := some eth, ipv4 := some ip }, payload) →
      ∃ eth' checksum, eth'.etherType = eth.etherType ∧
        parse out =
          (⟨some eth', some (ip.hopped (forwards hops ip.dstAddr) checksum)⟩, payload) ∧
        (hops ≠ [] → ((ip.hopped (forwards hops ip.dstAddr) checksum).Verifies payload ↔
          ip.OptionsCancel payload))

theorem exists_parse (hip : (parse bits).1.ipv4 = some ip) :
    ∃ eth payload, parse bits = ({ ethernet := some eth, ipv4 := some ip }, payload) := by
  rcases parse_cases bits with ⟨-, h⟩ | ⟨_, _, -, -, h⟩ | ⟨eth, ip', payload, -, -, h⟩
  · simp [h] at hip
  · simp [h] at hip
  · obtain rfl : ip' = ip := by simpa [h] using hip
    exact ⟨eth, payload, h⟩

theorem type_of_parse (hparse : parse bits = ({ ethernet := some eth, ipv4 := some ip }, payload)) :
    eth.etherType = typeIpv4 ∧ bits = ethernet.encode eth ++ ipv4.encode ip ++ payload := by
  rcases parse_cases bits with ⟨-, h⟩ | ⟨_, _, -, -, h⟩ | ⟨eth', ip', payload', hbits, htype, h⟩
  · rw [hparse] at h
    simp at h
  · rw [hparse] at h
    simp at h
  · rw [hparse] at h
    simp only [Prod.mk.injEq, Headers.mk.injEq, Option.some.injEq] at h
    obtain ⟨⟨rfl, rfl⟩, rfl⟩ := h
    exact ⟨htype, hbits⟩

theorem sent_eq (f : Forwarding) (ip : Ipv4) (payload : List Bool) :
    ∃ checksum, f.sent ip =
      ip.hopped (if f.action matches .ipv4Forward _ then 1 else 0) checksum ∧
        ((f.sent ip).Verifies payload ↔ ip.OptionsCancel payload) := by
  refine ⟨(f.sent ip).hdrChecksum, ?_, verifies_csum16 _ payload⟩
  unfold Forwarding.sent Ipv4.hopped
  split
  · rfl
  · simp

/-- A packet is the same packet to every marker on its way. -/
theorem packet_of_hopped {bits' : List Bool} {eth' : Ethernet} {n : ℕ} {checksum : BitVec 16}
    (hparse : parse bits = ({ ethernet := some eth, ipv4 := some ip }, payload))
    (hparse' : parse bits' =
      ({ ethernet := some eth', ipv4 := some (ip.hopped n checksum) }, payload))
    (hlength : bits'.length = bits.length) (t : Tables) (timestamp : BitVec 48) :
    t.packet timestamp bits' = t.packet timestamp bits := by
  unfold Tables.packet
  rw [hparse, hparse', hlength]
  rfl

theorem delivered_of_transmit (hout : hop.transmit bits = some out) :
    Delivered [hop] bits out := by
  obtain ⟨-, -, rfl⟩ := transmit_eq_some.mp hout
  rcases hip : (parse bits).1.ipv4 with _ | ip
  · rw [deparsed_of_none hip]
    refine ⟨rfl, fun _ _ => rfl, fun _ => rfl, fun eth ip payload hparse => ?_⟩
    rw [hparse] at hip
    cases hip
  · obtain ⟨eth, payload, hparse⟩ := exists_parse hip
    obtain ⟨htype, hbits⟩ := type_of_parse hparse
    obtain ⟨eth', htype', hdeparsed⟩ := deparsed_ipv4 hop htype hparse
    obtain ⟨checksum, hsent, hverifies⟩ := sent_eq (hop.tables.route ip.dstAddr) ip payload
    have hforwards : (if (hop.tables.route ip.dstAddr).action matches .ipv4Forward _ then 1 else 0) =
        forwards [hop] ip.dstAddr := by
      rw [forwards, List.countP_singleton]
    rw [hforwards] at hsent
    rw [hsent] at hverifies hdeparsed
    rw [hdeparsed]
    have hparse' := parse_encode htype' (ip.hopped (forwards [hop] ip.dstAddr) checksum) payload
    have hlength : (ethernet.encode eth' ++
        ipv4.encode (ip.hopped (forwards [hop] ip.dstAddr) checksum) ++ payload).length =
          bits.length := by
      rw [hbits]
      simp
    refine ⟨hlength, packet_of_hopped hparse hparse' hlength, fun hnone => ?_,
      fun eth₁ ip₁ payload₁ hparse₁ => ?_⟩
    · simp [hparse] at hnone
    · rw [hparse] at hparse₁
      simp only [Prod.mk.injEq, Headers.mk.injEq, Option.some.injEq] at hparse₁
      obtain ⟨⟨rfl, rfl⟩, rfl⟩ := hparse₁
      exact ⟨eth', checksum, htype'.trans htype.symm, hparse', fun _ => hverifies⟩

theorem hopped_hopped (ip : Ipv4) (n n' : ℕ) (checksum checksum' : BitVec 16) :
    (ip.hopped n checksum).hopped n' checksum' = ip.hopped (n + n') checksum' := by
  unfold Ipv4.hopped
  congr 1
  rw [BitVec.ofNat_add]
  exact sub_sub _ _ _

theorem forwards_cons (hop : Hop) (hops : List Hop) (dstAddr : BitVec 32) :
    forwards (hop :: hops) dstAddr = forwards [hop] dstAddr + forwards hops dstAddr := by
  rw [forwards, forwards, forwards, ← List.countP_append, List.singleton_append]

theorem delivered_of_travel (htravel : travel hops bits = some out) :
    Delivered hops bits out := by
  induction hops generalizing bits with
  | nil =>
      obtain rfl := Option.some.inj htravel
      refine ⟨rfl, fun _ _ => rfl, fun _ => rfl, fun eth ip payload hparse => ?_⟩
      exact ⟨eth, ip.hdrChecksum, rfl, by simpa [forwards, Ipv4.hopped] using hparse, by simp⟩
  | cons hop hops ih =>
      obtain ⟨mid, hmid, hrest⟩ := Option.bind_eq_some_iff.mp htravel
      have hfirst := delivered_of_transmit hmid
      cases hops with
      | nil =>
          obtain rfl := Option.some.inj hrest
          exact hfirst
      | cons next hops =>
          have hlater := ih hrest
          refine ⟨hlater.length.trans hfirst.length, fun t timestamp =>
            (hlater.same t timestamp).trans (hfirst.same t timestamp), fun hnone => ?_,
            fun eth ip payload hparse => ?_⟩
          · obtain rfl := hfirst.notIpv4 hnone
            exact hlater.notIpv4 hnone
          · obtain ⟨eth₁, checksum₁, htype₁, hparse₁, -⟩ := hfirst.ipv4 eth ip payload hparse
            obtain ⟨eth₂, checksum₂, htype₂, hparse₂, hverifies⟩ := hlater.ipv4 _ _ _ hparse₁
            rw [hopped_hopped] at hparse₂ hverifies
            rw [forwards_cons]
            exact ⟨eth₂, checksum₂, htype₂.trans htype₁, hparse₂, fun _ => hverifies (by simp)⟩

def Tables.Drops (t : Tables) (dstAddr : BitVec 32) : Prop :=
  (t.route dstAddr).action.egressSpec = MyIngress.dropPort

theorem marked_eq_dropPort : (hop.marked bits).egressSpec = MyIngress.dropPort ↔
    ∃ ip, (parse bits).1.ipv4 = some ip ∧ hop.tables.Drops ip.dstAddr := by
  rw [Hop.marked, egressSpec_apply]
  cases hip : (parse bits).1.ipv4 with
  | none => simp [Tables.packet, hip, MyIngress.dropPort]
  | some ip => simp [Tables.packet, hip, Tables.Drops]

theorem transmit_eq_none : hop.transmit bits = none ↔
    (hop.marked bits).egressSpec = MyIngress.dropPort ∨ hop.Full bits := by
  rw [Option.eq_none_iff_forall_ne_some]
  constructor
  · intro hnone
    by_contra hnot
    rw [not_or] at hnot
    exact hnone _ (transmit_eq_some.mpr ⟨hnot.1, hnot.2, rfl⟩)
  · intro hlost out hout
    obtain ⟨hport, hroom, -⟩ := transmit_eq_some.mp hout
    exact hlost.elim hport hroom

/-- Each switch marks what is left of a packet as it would mark the packet. -/
theorem marked_of_delivered (hdelivered : Delivered hops bits out) (hop : Hop) :
    hop.marked out = hop.marked bits := by
  rw [Hop.marked, Hop.marked, hdelivered.same]

theorem full_of_delivered (hdelivered : Delivered hops bits out) (hop : Hop) :
    hop.Full out ↔ hop.Full bits := by
  rw [Hop.Full, Hop.Full, Hop.virtualQueue, Hop.virtualQueue, Hop.logicalQueue, Hop.logicalQueue]
  simp only [marked_of_delivered hdelivered]

theorem travel_eq_none (hops : List Hop) (bits : List Bool) : travel hops bits = none ↔
    ∃ hop ∈ hops, (hop.marked bits).egressSpec = MyIngress.dropPort ∨ hop.Full bits := by
  induction hops generalizing bits with
  | nil => simp [travel]
  | cons hop hops ih =>
      simp only [travel, List.mem_cons, exists_eq_or_imp]
      rw [← transmit_eq_none]
      cases hout : hop.transmit bits with
      | none => simp
      | some mid =>
          have hdelivered := delivered_of_transmit hout
          rw [Option.bind_some, ih]
          simp [marked_of_delivered hdelivered, full_of_delivered hdelivered]

/-- Packets on a path.  A packet is lost only to a switch which drops its address or has no
room for it in the queue of its VN, however long the path is; whatever arrives is what was
sent, but for the link addresses, the time to live and the checksum, and every marker sees
the same packet.  The checksum verifies unless the options spoil it. -/
theorem travels (hops : List Hop) (bits : List Bool) :
    (travel hops bits = none ↔ ∃ hop ∈ hops,
      (∃ ip, (parse bits).1.ipv4 = some ip ∧ hop.tables.Drops ip.dstAddr) ∨ hop.Full bits) ∧
    (∀ out, travel hops bits = some out → Delivered hops bits out) ∧
    ∀ ip : Ipv4, ip.ihl = 5 → ∀ payload, ip.OptionsCancel payload := by
  refine ⟨?_, fun _ => delivered_of_travel, fun ip => Ipv4.optionsCancel_of_ihl⟩
  rw [travel_eq_none]
  simp only [marked_eq_dropPort]

end DataPlane

end Cmcs
