import Cmcs.MarkerConformance
import Mathlib.Tactic

/-!
# The burst limit of the color marker

The comments at `tau` promise that a green packet fits under `tau` together with
its own bits.  The program compares the level before it adds the packet.  A level
which keeps the promise never exceeds `tau`, so that no packet is yellow: the
promise is kept exactly on traces which obey the limit by themselves, whatever
their marking.
-/

namespace Cmcs

namespace MyIngress

open LeakyBucket

/-- What the comments say about one bucket which drains at rate `g`. -/
structure BurstLimited (i : Fin 64) (g : ℤ) (trace : List Packet) : Prop where
  admission : ∀ before x after a, trace = before ++ x :: after → x.meteredIn i = some a →
    (apply (runRegs .zero before) x).2.color = 0 →
      ((runRegs .zero before).bucket i).level g a.time.toInt + a.bits.toInt ≤ tau.toInt
  written : ∀ before x after a, trace = before ++ x :: after → x.meteredIn i = some a →
    (apply (runRegs .zero before) x).2.color = 0 →
      ((apply (runRegs .zero before) x).1.bucket i).X.toInt ≤ tau.toInt
  window : ∀ s t, s ≤ t →
    bitSum ((greens i .zero trace).filter fun a => s ≤ a.time.toInt ∧ a.time.toInt ≤ t) ≤
      tau.toInt + g * (t - s)

/-- What the packets offer to the bucket, marked green or not. -/
def offered (i : Fin 64) (trace : List Packet) : List (Arrival ℤ) :=
  (trace.filterMap (Packet.meteredIn i)).map Metering.arrival

/-! ## The drain clock -/

/-- The program takes the time 0 for no packet yet, and so the bucket does not drain
from a packet at time 0 to the next one. -/
def lostTime (arrivals : List (Arrival ℤ)) : ℤ :=
  if arrivals.any fun a => a.time = 0 then
    ((arrivals.find? fun a => 0 < a.time).map Arrival.time).getD 0
  else 0

def drainClock (lost t : ℤ) : ℤ := if 0 < t then t - lost else t

def onClock (lost : ℤ) (arrivals : List (Arrival ℤ)) : List (Arrival ℤ) :=
  arrivals.map fun a => { a with time := drainClock lost a.time }

/-- The arrivals at the times of a clock which stops where the bucket does not drain. -/
def onDrainClock (arrivals : List (Arrival ℤ)) : List (Arrival ℤ) :=
  onClock (lostTime arrivals) arrivals

theorem onDrainClock_of_ne_zero {arrivals : List (Arrival ℤ)}
    (htimes : ∀ a ∈ arrivals, a.time ≠ 0) : onDrainClock arrivals = arrivals := by
  have hlost : lostTime arrivals = 0 := if_neg (by simpa using htimes)
  have hclock : ∀ t, drainClock 0 t = t := fun t => by simp [drainClock]
  simp [onDrainClock, onClock, hlost, hclock]

theorem lostTime_nonneg (arrivals : List (Arrival ℤ)) : 0 ≤ lostTime arrivals := by
  unfold lostTime
  split
  · cases hfind : arrivals.find? fun a => 0 < a.time with
    | none => rfl
    | some a =>
        have hpos := List.find?_some hfind
        simp only [decide_eq_true_eq] at hpos
        exact hpos.le
  · rfl

theorem drainClock_sub {arrivals before after : List (Arrival ℤ)} {a b : Arrival ℤ}
    (hsorted : arrivals.Pairwise fun a b => a.time ≤ b.time)
    (hsplit : arrivals = before ++ a :: b :: after) :
    drainClock (lostTime arrivals) b.time - drainClock (lostTime arrivals) a.time =
      if a.time = 0 then 0 else b.time - a.time := by
  rw [hsplit] at hsorted
  obtain ⟨-, hrest, hcross⟩ := List.pairwise_append.mp hsorted
  have hbefore : ∀ x ∈ before, x.time ≤ a.time := fun x hx => hcross x hx a (by simp)
  obtain ⟨hlater, hlast⟩ := List.pairwise_cons.mp hrest
  have hle : a.time ≤ b.time := hlater b (by simp)
  have hafter : ∀ x ∈ after, b.time ≤ x.time := (List.pairwise_cons.mp hlast).1
  unfold drainClock
  by_cases hb : 0 < b.time
  · by_cases ha : 0 < a.time
    · simp [ha, hb, ha.ne']
    · have hnone : ∀ x ∈ before, ¬0 < x.time := fun x hx =>
        not_lt.mpr ((hbefore x hx).trans (not_lt.mp ha))
      rw [if_pos hb, if_neg ha]
      by_cases hzero : a.time = 0
      · -- the clock stands still until `b`
        have hfind : arrivals.find? (fun x => 0 < x.time) = some b := by
          rw [hsplit, List.find?_append, List.find?_eq_none.mpr (by simpa using hnone)]
          simp [ha, hb]
        have hlost : lostTime arrivals = b.time := by
          rw [lostTime, if_pos (by simp [hsplit, hzero]), hfind]
          rfl
        rw [hlost, if_pos hzero, hzero]
        ring
      · -- no packet at time 0 is in the trace
        have hlost : lostTime arrivals = 0 := by
          apply if_neg
          rw [hsplit]
          simp only [List.any_eq_true, decide_eq_true_eq, not_exists, not_and]
          intro x hx
          rcases List.mem_append.mp hx with hx | hx
          · have hx' := hbefore x hx
            omega
          · rcases List.mem_cons.mp hx with rfl | hx
            · exact hzero
            · rcases List.mem_cons.mp hx with rfl | hx
              · exact hb.ne'
              · exact (hb.trans_le (hafter x hx)).ne'
        rw [hlost, if_neg hzero, sub_zero]
  · have ha : ¬0 < a.time := not_lt.mpr (hle.trans (not_lt.mp hb))
    rw [if_neg hb, if_neg ha]
    split
    · omega
    · rfl

theorem drainClock_sub_le {lost s t : ℤ} (hlost : 0 ≤ lost) (hst : s ≤ t) :
    drainClock lost t - drainClock lost s ≤ t - s := by
  unfold drainClock
  split <;> split <;> omega

theorem volume_onClock (lost : ℤ) (arrivals : List (Arrival ℤ)) :
    volume (onClock lost arrivals) = volume arrivals := by
  simp [volume, onClock, Function.comp_def]

/-! ## Every packet green -/

variable {i : Fin 64} {g : ℤ} {trace : List Packet}

theorem bucket_of_level_le {before after : List Packet} {x : Packet} {a : Metering}
    (hoverflow : overflows i .zero (before ++ x :: after) = false)
    (hx : x.meteredIn i = some a)
    (hlevel : ((runRegs .zero before).bucket i).level a.leakRate.toInt a.time.toInt ≤
      tau.toInt) :
    ∃ X, (apply (runRegs .zero before) x).1.bucket i = ⟨a.time, X⟩ ∧
      X.toInt = max 0 (((runRegs .zero before).bucket i).level a.leakRate.toInt
        a.time.toInt) + a.bits.toInt := by
  rw [overflows_append, overflows, Bool.or_eq_false_iff, Bool.or_eq_false_iff] at hoverflow
  have hfits := hoverflow.2.1
  rw [hx, Option.any_some] at hfits
  obtain ⟨_, _, _, _, _, hbits⟩ := meteredIn_eq_some.mp hx
  obtain ⟨X, hmeter, hX⟩ := BucketState.meter_of_le hfits (hbits ▸ toInt_bits x) hlevel
  refine ⟨X, ?_, hX⟩
  rw [bucket_apply, hx]
  simp only [hmeter]

/-- The bucket of all offered packets, empty at the first of them. -/
def offeredBucket (g : ℤ) (arrivals before : List (Arrival ℤ)) : Bucket ℤ :=
  Bucket.fill g ⟨0, ((onDrainClock arrivals).head?.map Arrival.time).getD 0⟩
    (onClock (lostTime arrivals) before)

/-- As long as every packet is green the registers hold the bucket of all offered
packets. -/
structure AllGreen (i : Fin 64) (g : ℤ) (trace before : List Packet) : Prop where
  greens : greens i .zero before = before.filterMap (Packet.meteredIn i)
  last : ((runRegs .zero before).bucket i).LCT =
    ((before.filterMap (Packet.meteredIn i)).getLast?.map Metering.time).getD 0
  level : ((runRegs .zero before).bucket i).X.toInt =
    (offeredBucket g (offered i trace) (offered i before)).level
  within : ((runRegs .zero before).bucket i).X.toInt ≤ tau.toInt

theorem offered_split {before after : List Packet} {x : Packet} {a : Metering}
    (hx : x.meteredIn i = some a) :
    offered i (before ++ x :: after) = offered i before ++ a.arrival :: offered i after := by
  simp [offered, hx]

theorem offered_concat {before : List Packet} {x : Packet} {a : Metering}
    (hx : x.meteredIn i = some a) :
    offered i (before ++ [x]) = offered i before ++ [a.arrival] :=
  offered_split hx

theorem AllGreen.level_eq {before after : List Packet} {x : Packet} {a : Metering}
    (hgreen : AllGreen i g trace before) (hsplit : trace = before ++ x :: after)
    (hx : x.meteredIn i = some a)
    (hsorted : (offered i trace).Pairwise fun a b => a.time ≤ b.time) :
    ((runRegs .zero before).bucket i).level g a.time.toInt =
      (offeredBucket g (offered i trace) (offered i before)).decayed g
        (drainClock (lostTime (offered i trace)) a.time.toInt) := by
  have harrivals : offered i trace = offered i before ++ a.arrival :: offered i after :=
    hsplit ▸ offered_split hx
  have hlast := hgreen.last
  rw [BucketState.level, Bucket.decayed, hgreen.level]
  rcases List.eq_nil_or_concat (before.filterMap (Packet.meteredIn i)) with
    hnil | ⟨init, b, hconcat⟩
  · have hempty : offered i before = [] := by
      rw [offered, hnil]
      rfl
    rw [hnil] at hlast
    rw [hempty, List.nil_append] at harrivals
    have hstart : (offeredBucket g (offered i trace) (offered i before)).last =
        drainClock (lostTime (offered i trace)) a.time.toInt := by
      rw [hempty]
      simp [offeredBucket, onDrainClock, onClock, harrivals, Metering.arrival]
    rw [if_pos (by simpa using hlast), hstart]
    ring
  · rw [List.concat_eq_append] at hconcat
    rw [hconcat, List.getLast?_concat] at hlast
    have hoffered : offered i before = init.map Metering.arrival ++ [b.arrival] := by
      rw [offered, hconcat, List.map_append]
      rfl
    have hstored : (offeredBucket g (offered i trace) (offered i before)).last =
        drainClock (lostTime (offered i trace)) b.time.toInt := by
      rw [hoffered, offeredBucket, onClock, List.map_append, List.map_singleton,
        Bucket.last_fill_concat]
      rfl
    have hconsecutive : offered i trace =
        init.map Metering.arrival ++ b.arrival :: a.arrival :: offered i after := by
      rw [harrivals, hoffered, List.append_assoc, List.singleton_append]
    have hdrained : drainClock (lostTime (offered i trace)) a.time.toInt -
        drainClock (lostTime (offered i trace)) b.time.toInt =
          if b.time.toInt = 0 then 0 else a.time.toInt - b.time.toInt :=
      drainClock_sub hsorted hconsecutive
    simp only [Option.map_some, Option.getD_some] at hlast
    have hzero : b.time = 0 ↔ b.time.toInt = 0 := BitVec.toInt_inj.symm
    rw [hstored, hdrained, hlast]
    by_cases hstart : b.time = 0
    · rw [if_pos hstart, if_pos (hzero.mp hstart)]
    · rw [if_neg hstart, if_neg (mt hzero.mpr hstart)]

theorem allGreen_nil : AllGreen i g trace [] where
  greens := rfl
  last := rfl
  level := rfl
  within := (by decide : BitVec.toInt (0 : BitVec 48) ≤ tau.toInt)

theorem AllGreen.concat_of_notMetered {before : List Packet} {x : Packet}
    (hgreen : AllGreen i g trace before) (hx : x.meteredIn i = none) :
    AllGreen i g trace (before ++ [x]) := by
  have hbucket : (runRegs .zero (before ++ [x])).bucket i = (runRegs .zero before).bucket i := by
    rw [runRegs_concat, bucket_apply, hx]
  have hmetered : (before ++ [x]).filterMap (Packet.meteredIn i) =
      before.filterMap (Packet.meteredIn i) := by
    simp [hx]
  constructor
  · rw [greens_concat, hmetered, greenIn, hx, hgreen.greens]
    simp
  · rw [hbucket, hmetered, hgreen.last]
  · have hoffered : offered i (before ++ [x]) = offered i before := by
      rw [offered, hmetered]
      rfl
    rw [hbucket, hoffered, hgreen.level]
  · rw [hbucket]
    exact hgreen.within

/-- A bucket which holds at most `tau` drains, and so the next packet is green. -/
theorem AllGreen.level_le {before after : List Packet} {x : Packet} {a : Metering}
    (hgreen : AllGreen i g trace before) (hg : 0 ≤ g)
    (hsplit : trace = before ++ x :: after) (hx : x.meteredIn i = some a)
    (hsorted : (trace.filterMap (Packet.meteredIn i)).Pairwise
      fun a b => a.time.toInt ≤ b.time.toInt) :
    ((runRegs .zero before).bucket i).level g a.time.toInt ≤ tau.toInt := by
  have hdrained : 0 ≤ g * (if ((runRegs .zero before).bucket i).LCT = 0 then 0
      else a.time.toInt - ((runRegs .zero before).bucket i).LCT.toInt) := by
    apply mul_nonneg hg
    split
    · exact le_refl 0
    next hstored =>
      rw [hgreen.last] at hstored ⊢
      cases hb : (before.filterMap (Packet.meteredIn i)).getLast? with
      | none => simp [hb] at hstored
      | some b =>
          rw [hsplit, List.filterMap_append, List.pairwise_append] at hsorted
          have hle := hsorted.2.2 b (List.mem_of_getLast? hb) a (by simp [hx])
          simpa using hle
  have hwithin := hgreen.within
  rw [BucketState.level]
  linarith

/-- A packet which is not written above `tau` leaves the bucket of all packets. -/
theorem AllGreen.concat {before after : List Packet} {x : Packet} {a : Metering}
    (hgreen : AllGreen i g trace before) (hg : 0 ≤ g)
    (hoverflow : overflows i .zero trace = false)
    (hrate : ∀ a ∈ trace.filterMap (Packet.meteredIn i), a.leakRate.toInt = g)
    (hsorted : (trace.filterMap (Packet.meteredIn i)).Pairwise
      fun a b => a.time.toInt ≤ b.time.toInt)
    (hsplit : trace = before ++ x :: after) (hx : x.meteredIn i = some a)
    (hwithin : (apply (runRegs .zero before) x).2.color = 0 →
      ((apply (runRegs .zero before) x).1.bucket i).X.toInt =
        (offeredBucket g (offered i trace) (offered i (before ++ [x]))).level →
      ((apply (runRegs .zero before) x).1.bucket i).X.toInt ≤ tau.toInt) :
    AllGreen i g trace (before ++ [x]) := by
  have harrivals : (offered i trace).Pairwise fun a b => a.time ≤ b.time := by
    rw [offered, List.pairwise_map]
    exact hsorted
  have hleak : a.leakRate.toInt = g := hrate a (by simp [hsplit, hx])
  have hlevel := hgreen.level_le hg hsplit hx hsorted
  rw [← hleak] at hlevel
  have hsafe : overflows i .zero (before ++ x :: after) = false := hsplit ▸ hoverflow
  have hcolor := (color_eq_zero_iff hsafe hx).mpr hlevel
  obtain ⟨X, hbucket, hX⟩ := bucket_of_level_le hsafe hx hlevel
  have hwritten : X.toInt =
      (offeredBucket g (offered i trace) (offered i (before ++ [x]))).level := by
    rw [hX, hleak, hgreen.level_eq hsplit hx harrivals, offered_concat hx, offeredBucket,
      offeredBucket, onClock, onClock, List.map_append, List.map_singleton, Bucket.fill_concat]
    rfl
  have hconcat : (before ++ [x]).filterMap (Packet.meteredIn i) =
      before.filterMap (Packet.meteredIn i) ++ [a] := by
    simp [hx]
  constructor
  · rw [greens_concat, hconcat, greenIn, if_pos hcolor, hx, hgreen.greens]
    rfl
  · rw [runRegs_concat, hconcat, List.getLast?_concat, hbucket]
    rfl
  · rw [runRegs_concat, hbucket]
    exact hwritten
  · rw [hbucket] at hwithin
    rw [runRegs_concat, hbucket]
    exact hwithin hcolor hwritten

/-- Every packet is green if no green packet is written above `tau`. -/
theorem allGreen_of_within (hg : 0 ≤ g) (hoverflow : overflows i .zero trace = false)
    (hrate : ∀ a ∈ trace.filterMap (Packet.meteredIn i), a.leakRate.toInt = g)
    (hsorted : (trace.filterMap (Packet.meteredIn i)).Pairwise
      fun a b => a.time.toInt ≤ b.time.toInt)
    (hwithin : ∀ before x after a, trace = before ++ x :: after → x.meteredIn i = some a →
      (apply (runRegs .zero before) x).2.color = 0 →
        ((apply (runRegs .zero before) x).1.bucket i).X.toInt =
          (offeredBucket g (offered i trace) (offered i (before ++ [x]))).level →
        ((apply (runRegs .zero before) x).1.bucket i).X.toInt ≤ tau.toInt)
    {before after : List Packet} (hsplit : trace = before ++ after) :
    AllGreen i g trace before := by
  induction before using List.reverseRecOn generalizing after with
  | nil => exact allGreen_nil
  | append_singleton before x ih =>
      rw [List.append_assoc, List.singleton_append] at hsplit
      have hbefore := ih hsplit
      cases hx : x.meteredIn i with
      | none => exact hbefore.concat_of_notMetered hx
      | some a =>
          exact hbefore.concat hg hoverflow hrate hsorted hsplit hx
            (hwithin before x after a hsplit hx)

/-- The limit on the drain clock, packet by packet. -/
theorem bounded_onDrainClock_iff (i : Fin 64) (g : ℤ) (trace : List Packet) :
    Bounded g tau.toInt (onDrainClock (offered i trace)) ↔
      ∀ before x after a, trace = before ++ x :: after → x.meteredIn i = some a →
        (offeredBucket g (offered i trace) (offered i (before ++ [x]))).level ≤ tau.toInt := by
  rw [bounded_iff_level g tau.toInt
    ⟨0, ((onDrainClock (offered i trace)).head?.map Arrival.time).getD 0⟩
    fun first hfirst => by simp [Bucket.decayed, Option.mem_def.mp hfirst]]
  constructor
  · intro hlevels before x after a hsplit hx
    have harrivals : offered i trace = offered i before ++ a.arrival :: offered i after :=
      hsplit ▸ offered_split hx
    have hclock : onDrainClock (offered i trace) =
        onClock (lostTime (offered i trace)) (offered i before) ++
          onClock (lostTime (offered i trace)) (a.arrival :: offered i after) := by
      rw [onDrainClock, onClock, onClock, onClock, ← List.map_append, ← harrivals]
    have hlevel := hlevels _ _ _ hclock
    rw [offered_concat hx, offeredBucket, onClock, List.map_append]
    exact hlevel
  · intro hlevels before arrival after hsplit
    rw [onDrainClock, onClock, offered, List.map_map] at hsplit
    obtain ⟨metered, rest, hmetered, rfl, hrest⟩ := List.map_eq_append_iff.mp hsplit
    obtain ⟨a, rest', rfl, rfl, rfl⟩ := List.map_eq_cons_iff.mp hrest
    obtain ⟨first, second, rfl, rfl, hsecond⟩ := List.filterMap_eq_append_iff.mp hmetered
    obtain ⟨skipped, x, after, rfl, hskipped, hx, rfl⟩ := List.filterMap_eq_cons_iff.mp hsecond
    have hlevel := hlevels (first ++ skipped) x after a (by simp) hx
    have hearlier : offered i (first ++ skipped) =
        (first.filterMap (Packet.meteredIn i)).map Metering.arrival := by
      rw [offered, List.filterMap_append, List.filterMap_eq_nil_iff.mpr hskipped,
        List.append_nil]
    rw [offered_concat hx, hearlier, offeredBucket, onClock, List.map_append,
      List.map_map] at hlevel
    exact hlevel

theorem bounded_of_onClock {rate ceiling lost : ℤ} {arrivals : List (Arrival ℤ)}
    (hbounded : Bounded rate ceiling (onClock lost arrivals)) (hlost : 0 ≤ lost)
    (hrate : 0 ≤ rate) (hsorted : arrivals.Pairwise fun a b => a.time ≤ b.time) :
    Bounded rate ceiling arrivals := by
  intro before segment after first last hsplit hfirst hlast
  have hbound := hbounded (onClock lost before) (onClock lost segment) (onClock lost after)
    _ _ (by simp [hsplit, onClock]) (by rw [onClock, List.head?_map, hfirst]; rfl)
    (by rw [onClock, List.getLast?_map, hlast]; rfl)
  have hspan := time_le_of_segment hsorted hsplit hfirst hlast
  have hdrained := mul_le_mul_of_nonneg_left (drainClock_sub_le hlost hspan) hrate
  rw [volume_onClock] at hbound
  exact hbound.trans (by linarith)

/-- The promise holds of a trace exactly when the packets offered to the bucket obey
the limit by themselves: their bits in every window are at most `tau` and what drains. -/
theorem burst_limited_iff (i : Fin 64) (g : BitVec 48) (trace : List Packet)
    (hg : 0 ≤ g.toInt) (hoverflow : overflows i .zero trace = false)
    (hrate : ∀ a ∈ trace.filterMap (Packet.meteredIn i), a.leakRate = g)
    (hsorted : (trace.filterMap (Packet.meteredIn i)).Pairwise
      fun a b => a.time.toInt ≤ b.time.toInt) :
    BurstLimited i g.toInt trace ↔
      Bounded g.toInt tau.toInt (onDrainClock (offered i trace)) := by
  have hexact : ∀ a ∈ trace.filterMap (Packet.meteredIn i), a.leakRate.toInt = g.toInt :=
    fun a ha => congrArg BitVec.toInt (hrate a ha)
  constructor
  · intro hlimited
    rw [bounded_onDrainClock_iff]
    intro before x after a hsplit hx
    have hgreen := allGreen_of_within hg hoverflow hexact hsorted
      (fun before x after a hsplit hx hcolor _ =>
        hlimited.written before x after a hsplit hx hcolor)
      (show trace = (before ++ [x]) ++ after by rw [hsplit, List.append_cons])
    rw [← hgreen.level]
    exact hgreen.within
  · intro hbounded
    have hlevels := (bounded_onDrainClock_iff i g.toInt trace).mp hbounded
    have hgreen : ∀ {before after}, trace = before ++ after →
        AllGreen i g.toInt trace before :=
      allGreen_of_within hg hoverflow hexact hsorted fun before x after a hsplit hx _ hX => by
        rw [hX]
        exact hlevels before x after a hsplit hx
    have hwritten : ∀ before x after a, trace = before ++ x :: after →
        x.meteredIn i = some a →
          ((apply (runRegs .zero before) x).1.bucket i).X.toInt ≤ tau.toInt := by
      intro before x after a hsplit hx
      rw [← runRegs_concat]
      exact (hgreen (by rw [hsplit, List.append_cons])).within
    constructor
    · intro before x after a hsplit hx hcolor
      have hsafe : overflows i .zero (before ++ x :: after) = false := hsplit ▸ hoverflow
      have hlevel := (color_eq_zero_iff hsafe hx).mp hcolor
      obtain ⟨X, hbucket, hX⟩ := bucket_of_level_le hsafe hx hlevel
      have hbound := hwritten before x after a hsplit hx
      rw [hbucket, hX, hexact a (by simp [hsplit, hx])] at hbound
      exact (add_le_add_left (le_max_right 0 _) _).trans hbound
    · intro before x after a hsplit hx hcolor
      exact hwritten before x after a hsplit hx
    · intro s t hst
      have harrivals : (offered i trace).Pairwise fun a b => a.time ≤ b.time := by
        rw [offered, List.pairwise_map]
        exact hsorted
      have hwindow := (bounded_of_onClock hbounded (lostTime_nonneg _) hg
        harrivals).volume_interval_le (by decide) hg harrivals hst
      rw [offered, List.filter_map, volume_arrivals,
        ← (hgreen (List.append_nil trace).symm).greens] at hwindow
      exact hwindow

/-- Five maximum-sized packets in one microsecond: the fifth finds the level at
`tau` and is still marked green. -/
theorem burst_limit_five_packets :
    overflows 10 .zero (List.replicate 5 packetOfVn1) = false ∧
      (List.replicate 5 packetOfVn1).filterMap (Packet.meteredIn 10) =
        List.replicate 5 ⟨1, 10, 12112⟩ ∧
      (apply (runRegs .zero (List.replicate 4 packetOfVn1)) packetOfVn1).2.color = 0 ∧
      ((runRegs .zero (List.replicate 4 packetOfVn1)).bucket 10).level 10 1 = 48448 ∧
      ((runRegs .zero (List.replicate 5 packetOfVn1)).bucket 10).X.toInt = 60560 ∧
      bitSum (greens 10 .zero (List.replicate 5 packetOfVn1)) = 60560 ∧
      ¬BurstLimited 10 10 (List.replicate 5 packetOfVn1) := by
  have hX : ((apply (runRegs .zero (List.replicate 4 packetOfVn1)) packetOfVn1).1.bucket
      10).X.toInt = 60560 := by
    decide +kernel
  have hgreen : (apply (runRegs .zero (List.replicate 4 packetOfVn1)) packetOfVn1).2.color =
      0 := by
    decide +kernel
  refine ⟨by decide +kernel, by decide +kernel, hgreen, by decide +kernel, hX,
    by decide +kernel, ?_⟩
  intro hlimited
  have hwritten := hlimited.written (List.replicate 4 packetOfVn1) packetOfVn1 []
    ⟨1, 10, 12112⟩ rfl (by decide +kernel) hgreen
  rw [hX] at hwritten
  exact absurd hwritten (by decide)

/-- Four of them stay under the limit. -/
theorem burst_limited_four_packets : BurstLimited 10 10 (List.replicate 4 packetOfVn1) :=
  (burst_limited_iff 10 10 (List.replicate 4 packetOfVn1) (by decide) (by decide +kernel)
    (by decide +kernel) (by decide +kernel)).mpr
      (bounded_of_volume_le (by decide) (by decide +kernel) (by decide +kernel)
        (by decide +kernel))

end MyIngress

end Cmcs
