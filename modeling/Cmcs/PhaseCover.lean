import Cmcs.Dict
import Cmcs.RunTest
import Mathlib.Tactic

/-!
# The phases of a configuration

The activity of a VN in a phase is sampled at the midpoint, with the first matching
session.  No session begins or ends inside a phase, and the sessions of a VN follow
one another, so the sample is what holds at every instant of the phase.
-/

namespace Cmcs

namespace RunTest

open TimePartition

/-- The sessions of VN `v`; none if the configuration has no such VN. -/
def Vns.sessionsOf (vns : Vns) (v : ℕ) : List Session :=
  ((vns.items.lookup v).bind VnEntry.sessions).getD []

/-- `b` is a start or an end of a session. -/
def Vns.Boundary (vns : Vns) (b : ℚ) : Prop :=
  ∃ v, ∃ sess ∈ vns.sessionsOf v, b = sess.start ∨ b = sess.stop

section Table

variable {vns : Vns} {table : List (ℕ × List Session)}

theorem mem_sessionsOf {v : ℕ} {sess : Session} :
    sess ∈ vns.sessionsOf v ↔
      ∃ vn sessions, (v, vn) ∈ vns.items ∧ vn.sessions = some sessions ∧ sess ∈ sessions := by
  unfold Vns.sessionsOf
  constructor
  · intro hsess
    cases hlookup : vns.items.lookup v with
    | none => simp [hlookup] at hsess
    | some vn =>
        cases hsessions : vn.sessions with
        | none => simp [hlookup, hsessions] at hsess
        | some sessions =>
            rw [hlookup, Option.bind_some, hsessions, Option.getD_some] at hsess
            exact ⟨vn, sessions, (Dict.lookup_eq_some_iff vns.nodup).mp hlookup, hsessions, hsess⟩
  · intro hsess
    obtain ⟨vn, sessions, hvn, hsessions, hmem⟩ := hsess
    rw [(Dict.lookup_eq_some_iff vns.nodup).mpr hvn, Option.bind_some, hsessions,
      Option.getD_some]
    exact hmem

theorem keys_table (htable : vns.sessions = some table) :
    table.map Prod.fst = vns.items.map Prod.fst :=
  (Dict.mapM_values htable).1

theorem mem_table (htable : vns.sessions = some table) {v : ℕ} {sessions : List Session}
    (hmem : (v, sessions) ∈ table) : vns.sessionsOf v = sessions := by
  obtain ⟨vn, hvn, hsessions⟩ := ((Dict.mapM_values htable).2 v sessions).mp hmem
  rw [Vns.sessionsOf, (Dict.lookup_eq_some_iff vns.nodup).mpr hvn, Option.bind_some, hsessions,
    Option.getD_some]

theorem exists_table (htable : vns.sessions = some table) {v : ℕ} {sess : Session}
    (hsess : sess ∈ vns.sessionsOf v) : (v, vns.sessionsOf v) ∈ table := by
  obtain ⟨vn, sessions, hvn, hsessions, hmem⟩ := mem_sessionsOf.mp hsess
  have htab : (v, sessions) ∈ table := ((Dict.mapM_values htable).2 v sessions).mpr
    ⟨vn, hvn, hsessions⟩
  rwa [mem_table htable htab]

theorem mem_boundaries (htable : vns.sessions = some table) {b : ℚ} :
    b ∈ boundaries table ↔ vns.Boundary b := by
  simp only [boundaries, List.mem_insertionSort, List.mem_dedup, List.mem_flatMap,
    List.mem_cons, List.not_mem_nil, or_false, Prod.exists, Vns.Boundary]
  constructor
  · intro hb
    obtain ⟨v, sessions, htab, sess, hsess, hb⟩ := hb
    exact ⟨v, sess, by rwa [mem_table htable htab], hb⟩
  · intro hb
    obtain ⟨v, sess, hsess, hb⟩ := hb
    exact ⟨v, vns.sessionsOf v, exists_table htable hsess, sess, hsess, hb⟩

theorem sorted_boundaries (table : List (ℕ × List Session)) :
    (boundaries table).Pairwise (· < ·) := by
  have hle : (boundaries table).Pairwise (· ≤ ·) := List.pairwise_insertionSort _ _
  have hne : (boundaries table).Pairwise (· ≠ ·) :=
    (List.perm_insertionSort _ _).nodup_iff.mpr (List.nodup_dedup _)
  exact hle.imp₂ (fun _ _ hle hne => lt_of_le_of_ne hle hne) hne

end Table

/-! ## Accepted sessions -/

section Sessions

theorem gaps_of_check {vnid : ℕ} {vn : VnEntry} {sessions : List Session}
    (hsessions : vn.sessions = some sessions) (hcheck : vn.check vnid = none) :
    (sortedSessions sessions).Pairwise fun a b => a.stop ≤ b.start := by
  have hsorted : (sortedSessions sessions).Pairwise fun a b => a.start ≤ b.start :=
    List.pairwise_insertionSort _ _
  simp only [VnEntry.check, hsessions, Option.getD_some, Option.or_eq_none_iff,
    List.findSome?_eq_none_iff] at hcheck
  refine pairwise_of_adjacent hsorted fun p hp => ?_
  have hoverlap := hcheck.1 p hp
  unfold Session.checkOverlap at hoverlap
  split at hoverlap
  next => simp at hoverlap
  next hle => exact not_lt.mp hle

/-- At any instant a VN of an accepted configuration has at most one session. -/
theorem filter_contains {vns : Vns} (hvalid : vns.validate = none) {v : ℕ} {sess : Session}
    {t : ℚ} (hsess : sess ∈ vns.sessionsOf v) (ht : sess.Contains t) :
    (vns.sessionsOf v).filter (fun sess => sess.Contains t) = [sess] := by
  obtain ⟨vn, sessions, hvn, hsessions, hmem⟩ := mem_sessionsOf.mp hsess
  have hof : vns.sessionsOf v = sessions := by
    rw [Vns.sessionsOf, (Dict.lookup_eq_some_iff vns.nodup).mpr hvn, Option.bind_some,
      hsessions, Option.getD_some]
  have hcheck : vn.check v = none := List.findSome?_eq_none_iff.mp hvalid (v, vn) hvn
  have hperm : (sortedSessions sessions).Perm sessions := List.perm_insertionSort _ _
  have hsingle := filter_within_of_mem (gaps_of_check hsessions hcheck)
    (hperm.mem_iff.mpr hmem) ht
  rw [hof, ← List.perm_singleton, ← hsingle]
  exact (hperm.filter _).symm

end Sessions

/-! ## One phase -/

section Phase

variable {vns : Vns} {table : List (ℕ × List Session)} {p : ℚ × ℚ} {v : ℕ} {t : ℚ}

theorem mem_flowMap {sess : Session} :
    (v, sess) ∈ (phaseOf table p.1 p.2).flowMap ↔
      ∃ sessions, (v, sessions) ∈ table ∧
        sessions.find? (fun sess => sess.Contains ((p.1 + p.2) / 2)) = some sess := by
  simp only [phaseOf, List.mem_filterMap, List.mem_insertionSort, flow, Option.map_eq_some_iff,
    Prod.mk.injEq, Prod.exists]
  constructor
  · intro hflow
    obtain ⟨v', sessions, htab, sess', hfind, rfl, rfl⟩ := hflow
    exact ⟨sessions, htab, hfind⟩
  · intro hflow
    obtain ⟨sessions, htab, hfind⟩ := hflow
    exact ⟨v, sessions, htab, sess, hfind, rfl, rfl⟩

theorem nodup_flowMap (hnodup : (table.map Prod.fst).Nodup) :
    ((phaseOf table p.1 p.2).flowMap.map Prod.fst).Nodup := by
  have hkeys : ∀ items : List (ℕ × List Session),
      ((items.filterMap (flow ((p.1 + p.2) / 2))).map Prod.fst).Sublist
        (items.map Prod.fst) := by
    intro items
    induction items with
    | nil => simp
    | cons item items ih =>
        rw [List.filterMap_cons]
        cases hflow : flow ((p.1 + p.2) / 2) item with
        | none => exact ih.cons _
        | some entry =>
            obtain ⟨sess, -, rfl⟩ := Option.map_eq_some_iff.mp hflow
            exact ih.cons_cons _
  refine (hkeys _).nodup ?_
  exact ((List.perm_insertionSort _ table).map _).nodup_iff.mpr hnodup

theorem within_midpoint (hlt : p.1 < p.2) : Within p.1 p.2 ((p.1 + p.2) / 2) :=
  ⟨by linarith, by linarith⟩

/-- What an entry of the flow map says of every instant of the phase. -/
theorem flowMap_iff (hvalid : vns.validate = none) (htable : vns.sessions = some table)
    (hp : p ∈ adjacent (boundaries table)) (ht : Within p.1 p.2 t) {sess : Session} :
    (v, sess) ∈ (phaseOf table p.1 p.2).flowMap ↔
      (vns.sessionsOf v).filter (fun sess => sess.Contains t) = [sess] := by
  have hsorted := sorted_boundaries table
  have hmid := within_midpoint (lt_of_adjacent hsorted hp)
  have hsame : ∀ sess ∈ vns.sessionsOf v,
      (sess.Contains ((p.1 + p.2) / 2) ↔ sess.Contains t) := by
    intro sess hsess
    refine within_congr hsorted hp hmid ht ?_ ?_
    · exact (mem_boundaries htable).mpr ⟨v, sess, hsess, Or.inl rfl⟩
    · exact (mem_boundaries htable).mpr ⟨v, sess, hsess, Or.inr rfl⟩
  rw [mem_flowMap]
  constructor
  · intro hflow
    obtain ⟨sessions, htab, hfind⟩ := hflow
    obtain rfl := mem_table htable htab
    have hmem := List.mem_of_find?_eq_some hfind
    refine filter_contains hvalid hmem ((hsame sess hmem).mp ?_)
    simpa using List.find?_some hfind
  · intro hfilter
    have hsess : sess ∈ vns.sessionsOf v ∧ sess.Contains t := by
      have hmem : sess ∈ (vns.sessionsOf v).filter (fun sess => sess.Contains t) := by
        rw [hfilter]
        exact List.mem_singleton_self sess
      simpa using hmem
    refine ⟨vns.sessionsOf v, exists_table htable hsess.1, ?_⟩
    have hmidpoint := filter_contains hvalid hsess.1 ((hsame sess hsess.1).mpr hsess.2)
    rw [← List.head?_filter, hmidpoint]
    rfl

end Phase

/-! ## All phases -/

/-- The phases cut the time from the first boundary to the last one, and each tells of
all its instants which VNs are active and in which session. -/
structure ExactPhases (vns : Vns) (phases : List Phase) : Prop where
  consecutive : phases.IsChain fun ph ph' => ph.stop = ph'.start
  lasting : ∀ ph ∈ phases, ph.start < ph.stop
  disjoint : phases.Pairwise fun ph ph' => ph.stop ≤ ph'.start
  cover : ∀ t, (∃ ph ∈ phases, ph.start ≤ t ∧ t < ph.stop) ↔
    (∃ b, vns.Boundary b ∧ b ≤ t) ∧ ∃ b, vns.Boundary b ∧ t < b
  active_iff : ∀ ph ∈ phases, ∀ t, ph.start ≤ t → t < ph.stop → ∀ v,
    (∃ sess ∈ vns.sessionsOf v, sess.start ≤ t ∧ t < sess.stop) ↔ v ∈ ph.activeVnids
  flow : ∀ ph ∈ phases, ∀ t, ph.start ≤ t → t < ph.stop → ∀ v ∈ ph.activeVnids,
    ∃ sess, ph.flowMap.lookup v = some sess ∧
      (vns.sessionsOf v).filter (fun sess => sess.start ≤ t ∧ t < sess.stop) = [sess]

theorem mem_activeVnids {table : List (ℕ × List Session)} {p : ℚ × ℚ} {v : ℕ} :
    v ∈ (phaseOf table p.1 p.2).activeVnids ↔
      ∃ sess, (v, sess) ∈ (phaseOf table p.1 p.2).flowMap := by
  change v ∈ (phaseOf table p.1 p.2).flowMap.map Prod.fst ↔ _
  simp

theorem derivePhases_exact {vns : Vns} {phases : List Phase} (hvalid : vns.validate = none)
    (hphases : vns.derivePhases = some phases) : ExactPhases vns phases := by
  obtain ⟨table, htable, rfl⟩ := Option.map_eq_some_iff.mp hphases
  have hsorted := sorted_boundaries table
  constructor
  · rw [List.isChain_map]
    exact isChain_adjacent _
  · intro ph hph
    obtain ⟨p, hp, rfl⟩ := List.mem_map.mp hph
    exact lt_of_adjacent hsorted hp
  · rw [List.pairwise_map]
    exact pairwise_adjacent hsorted
  · intro t
    have hcell := exists_cell_iff hsorted t
    simp only [mem_boundaries htable] at hcell
    rw [← hcell]
    simp [phaseOf, Within]
  · intro ph hph t hstart hstop v
    obtain ⟨p, hp, rfl⟩ := List.mem_map.mp hph
    have hwithin : Within p.1 p.2 t := ⟨hstart, hstop⟩
    rw [mem_activeVnids]
    constructor
    · intro hsession
      obtain ⟨sess, hsess, ht⟩ := hsession
      exact ⟨sess, (flowMap_iff hvalid htable hp hwithin).mpr
        (filter_contains hvalid hsess ht)⟩
    · intro hentry
      obtain ⟨sess, hentry⟩ := hentry
      have hmem : sess ∈ (vns.sessionsOf v).filter (fun sess => sess.Contains t) := by
        rw [(flowMap_iff hvalid htable hp hwithin).mp hentry]
        exact List.mem_singleton_self sess
      exact ⟨sess, (List.mem_filter.mp hmem).1, of_decide_eq_true (List.mem_filter.mp hmem).2⟩
  · intro ph hph t hstart hstop v hv
    obtain ⟨p, hp, rfl⟩ := List.mem_map.mp hph
    obtain ⟨sess, hentry⟩ := mem_activeVnids.mp hv
    refine ⟨sess, ?_, (flowMap_iff hvalid htable hp ⟨hstart, hstop⟩).mp hentry⟩
    refine (Dict.lookup_eq_some_iff (nodup_flowMap ?_)).mpr hentry
    rw [keys_table htable]
    exact vns.nodup

/-- A VN with a session which ends before it starts, and a gap of half a second. -/
def gapInVn2 : Vns where
  items :=
    [(2, ⟨some [⟨21 / 2, 30, .tcp, none, some (.int 1400)⟩, ⟨10, 5, .tcp, none, none⟩,
      ⟨0, 10, .udp, some "4M".toList, none⟩]⟩)]
  nodup := by decide

theorem derivePhases_exact_gap :
    ∃ phases, gapInVn2.derivePhases = some phases ∧
      phases.map Phase.activeVnids = [[2], [2], [], [2]] ∧ ExactPhases gapInVn2 phases := by
  have heval : (gapInVn2.derivePhases.map fun phases => phases.map Phase.activeVnids) =
      some [[2], [2], [], [2]] := by
    decide +kernel
  obtain ⟨phases, hphases, hactive⟩ := Option.map_eq_some_iff.mp heval
  exact ⟨phases, hphases, hactive, derivePhases_exact (by decide +kernel) hphases⟩

end RunTest

end Cmcs
