import Cmcs.Text
import Cmcs.TimePartition
import Mathlib.Data.List.Dedup
import Mathlib.Data.List.Sort
import Mathlib.Data.Rat.Defs
import Mathlib.Tactic

/-!
# The configuration of `run_test.py` and its phases

Times are exact rationals.  A dictionary is the list of its items in the order of
insertion, with distinct keys, and a call of `sys.exit` is the error with which the
program ends.
-/

namespace Cmcs

namespace RunTest

def iperf3StartOffset : ℚ := 2

def trafficWarmupSkip : ℚ := 2

def trafficCooldownSkip : ℚ := 2

def tsharkSettle : ℚ := 4

def minAnalysisWindow : ℚ := 5

inductive Proto
  | udp
  | tcp
  deriving DecidableEq

def Proto.text : Proto → List Char
  | .udp => "UDP".toList
  | .tcp => "TCP".toList

/-- What a session may give as `tcp_mss`. -/
inductive TcpMss
  | int (n : ℤ)
  | other
  deriving DecidableEq

/-- A session; `stop` is its `end`. -/
structure Session where
  start : ℚ
  stop : ℚ
  proto : Proto
  udpBw : Option (List Char) := none
  tcpMss : Option TcpMss := none
  deriving DecidableEq

/-- `s.start <= t < s.end` -/
def Session.Contains (sess : Session) (t : ℚ) : Prop :=
  TimePartition.Within sess.start sess.stop t

instance (sess : Session) (t : ℚ) : Decidable (sess.Contains t) :=
  inferInstanceAs (Decidable (TimePartition.Within _ _ _))

/-- What validation and phase derivation read of an entry of `VNS`. -/
structure VnEntry where
  sessions : Option (List Session)

structure Vns where
  items : List (ℕ × VnEntry)
  nodup : (items.map Prod.fst).Nodup

inductive ConfigError
  | overlap (vnid : ℕ) (s1 e1 s2 e2 : ℚ)
  | missingUdpBw (vnid : ℕ) (s : ℚ)
  | tcpMss (vnid : ℕ)
  | shortWindow (name : List Char) (w : ℚ)
  deriving DecidableEq

/-- The text given to `sys.exit`, for a rendering `num` of the times. -/
def ConfigError.message (num : ℚ → List Char) : ConfigError → List Char
  | .overlap vnid s1 e1 s2 e2 =>
      "[ERROR] VN ".toList ++ Text.ofNat vnid ++ ": session [".toList ++ num s1 ++
        ",".toList ++ num e1 ++ ") overlaps with [".toList ++ num s2 ++ ",".toList ++ num e2 ++
        ")".toList
  | .missingUdpBw vnid s =>
      "[ERROR] VN ".toList ++ Text.ofNat vnid ++ ": UDP session (start=".toList ++ num s ++
        ") is missing the udp_bw field".toList
  | .tcpMss vnid =>
      "[ERROR] VN ".toList ++ Text.ofNat vnid ++ ": tcp_mss must be a positive integer".toList
  | .shortWindow name w =>
      "[ERROR] Phase ".toList ++ name ++ " analysis window is only ".toList ++ num w ++
        "s (minimum 5s). Reduce TRAFFIC_WARMUP_SKIP / TRAFFIC_COOLDOWN_SKIP".toList ++
        " or increase the phase duration.".toList

/-! ## `_validate` -/

namespace Session

def checkOverlap (vnid : ℕ) (p : Session × Session) : Option ConfigError :=
  if p.2.start < p.1.stop then some (.overlap vnid p.1.start p.1.stop p.2.start p.2.stop)
  else none

def checkUdpBw (vnid : ℕ) (sess : Session) : Option ConfigError :=
  if sess.proto = .udp ∧ sess.udpBw = none then some (.missingUdpBw vnid sess.start) else none

def checkTcpMss (vnid : ℕ) (sess : Session) : Option ConfigError :=
  if sess.proto = .tcp then
    match sess.tcpMss with
    | none => none
    | some (.int n) => if n ≤ 0 then some (.tcpMss vnid) else none
    | some .other => some (.tcpMss vnid)
  else none

end Session

/-- `sorted(..., key=lambda s: s['start'])`, which is stable. -/
def sortedSessions (sessions : List Session) : List Session :=
  sessions.insertionSort fun s s' => s.start ≤ s'.start

def VnEntry.check (vnid : ℕ) (vn : VnEntry) : Option ConfigError :=
  let sessions := sortedSessions (vn.sessions.getD [])
  ((TimePartition.adjacent sessions).findSome? (Session.checkOverlap vnid)).or <|
    (sessions.findSome? (Session.checkUdpBw vnid)).or <|
      sessions.findSome? (Session.checkTcpMss vnid)

/-- `_validate`: the first violation, if there is one. -/
def Vns.validate (vns : Vns) : Option ConfigError :=
  vns.items.findSome? fun item => item.2.check item.1

/-! ## `_derive_phases` -/

structure Phase where
  name : List Char
  start : ℚ
  stop : ℚ
  activeVnids : List ℕ
  flowMap : List (ℕ × Session)
  isIdle : Bool
  deriving DecidableEq

/-- `int(x)`, which truncates towards 0. -/
def truncated (x : ℚ) : ℤ := x.num.tdiv x.den

theorem abs_sub_truncated_lt (x : ℚ) : |x - truncated x| < 1 := by
  have hden : (0 : ℚ) < x.den := by exact_mod_cast x.den_pos
  have hden' : (0 : ℤ) < x.den := by exact_mod_cast x.den_pos
  have hdiv : (x.num : ℚ) = x.den * truncated x + x.num.tmod x.den := by
    exact_mod_cast (Int.mul_tdiv_add_tmod x.num x.den).symm
  have hx : x - truncated x = x.num.tmod x.den / x.den := by
    rw [eq_div_iff hden.ne', sub_mul, Rat.mul_den_eq_num, hdiv]
    ring
  have hupper : (x.num.tmod x.den : ℚ) < x.den := by
    exact_mod_cast Int.tmod_lt_of_pos x.num hden'
  have hlower : -(x.den : ℚ) < x.num.tmod x.den := by
    exact_mod_cast Int.lt_tmod_of_pos x.num hden'
  rw [hx, abs_lt, lt_div_iff₀ hden, div_lt_one hden]
  exact ⟨by linarith, hupper⟩

def phaseName (tS tE : ℚ) : List Char :=
  "Phase_".toList ++ Text.ofInt (truncated tS) ++ "s-".toList ++ Text.ofInt (truncated tE) ++
    "s".toList

/-- `vn['sessions']` of all VNs; a missing one is a `KeyError`. -/
def Vns.sessions (vns : Vns) : Option (List (ℕ × List Session)) :=
  vns.items.mapM fun item => item.2.sessions.map fun sessions => (item.1, sessions)

def boundaries (table : List (ℕ × List Session)) : List ℚ :=
  let all := table.flatMap fun item => item.2.flatMap fun sess => [sess.start, sess.stop]
  all.dedup.insertionSort (· ≤ ·)

/-- The first session of a VN which contains `mid`. -/
def flow (mid : ℚ) (item : ℕ × List Session) : Option (ℕ × Session) :=
  (item.2.find? fun sess => sess.Contains mid).map fun sess => (item.1, sess)

def phaseOf (table : List (ℕ × List Session)) (tS tE : ℚ) : Phase :=
  let mid := (tS + tE) / 2
  let flowMap := (table.insertionSort fun a b => a.1 ≤ b.1).filterMap (flow mid)
  let activeVnids := flowMap.map Prod.fst
  { name := phaseName tS tE
    start := tS
    stop := tE
    activeVnids := activeVnids
    flowMap := flowMap
    isIdle := activeVnids.length = 0 }

def Vns.derivePhases (vns : Vns) : Option (List Phase) :=
  vns.sessions.map fun table =>
    (TimePartition.adjacent (boundaries table)).map fun p => phaseOf table p.1 p.2

/-! ## `_validate_phases` -/

def Phase.checkWindow (ph : Phase) : Option ConfigError :=
  if ph.isIdle then none
  else
    let window := ph.stop - ph.start - trafficWarmupSkip - trafficCooldownSkip
    if window < minAnalysisWindow then some (.shortWindow ph.name window) else none

def validatePhases (phases : List Phase) : Option ConfigError :=
  phases.findSome? Phase.checkWindow

end RunTest

end Cmcs
