import Cmcs.PhaseCover
import Cmcs.TsharkOutput
import Mathlib.Tactic

/-!
# Analysis samples and the full timeline

Stage 8b of `run_experiment` builds the timeline of a VN for the plots and fills the
seconds without a row with zeros; stage 9 cuts the samples of a phase out of the same
text and fills nothing.  The two agree in the analysis window only if the rows of the
window are those of all its seconds, in order.
-/

namespace Cmcs

namespace RunTest

open TimePartition

/-- `total_end`; the maximum of no sessions is a `ValueError`. -/
def Vns.totalEnd (vns : Vns) : Option ℚ :=
  vns.sessions.bind fun table =>
    (table.flatMap fun item => item.2.map Session.stop).max?

/-! ## Stage 8b -/

/-- The seconds without a row. -/
def missingSeconds (totalEnd : ℚ) (rows : List (ℚ × ℚ)) : List (ℚ × ℚ) :=
  let existing := rows.map Prod.fst
  let range := List.range (truncated totalEnd + truncated tsharkSettle).toNat
  (range.filter fun t : ℕ => (t : ℚ) ∉ existing).map fun t : ℕ => ((t : ℚ), 0)

def zeroFill (totalEnd : ℚ) (rows : List (ℚ × ℚ)) : List (ℚ × ℚ) :=
  (rows ++ missingSeconds totalEnd rows).insertionSort fun a b => a.1 ≤ b.1

def fullTimeline (raw : List Char) (totalEnd : ℚ) : Option (List (ℚ × ℚ)) :=
  (parseTsharkIoStatFull raw).map (zeroFill totalEnd)

/-! ## Stage 9 -/

/-- The samples which are stored for a VN with the block `raw` in a phase. -/
def phaseSamples (raw : List Char) (ph : Phase) : Option (List (ℚ × ℚ)) :=
  let tMin := iperf3StartOffset + ph.start + trafficWarmupSkip
  let tMax := iperf3StartOffset + ph.stop - trafficCooldownSkip
  (parseTsharkIoStat raw tMin tMax).map fun rows =>
    rows.map fun row => (row.1 - iperf3StartOffset, row.2)

/-- `mean_raw` of `_build_error_rows` -/
def meanRaw (mbpsList : List ℚ) : ℚ :=
  if mbpsList = [] then 0 else mbpsList.sum / mbpsList.length

/-! ## Agreement -/

namespace Phase

variable (ph : Phase)

/-- `t` is in the analysis window, in the time of the clients. -/
def InWindow (t : ℚ) : Prop :=
  ph.start + trafficWarmupSkip ≤ t ∧ t < ph.stop - trafficCooldownSkip

instance (t : ℚ) : Decidable (ph.InWindow t) := inferInstanceAs (Decidable (_ ∧ _))

def windowLength : ℚ := ph.stop - ph.start - trafficWarmupSkip - trafficCooldownSkip

/-- The rows of the window, in the order of the text. -/
def windowRows (rows : List Row) : List Row :=
  rows.filter fun row => ph.InWindow (row.t0 - iperf3StartOffset)

def windowBits (rows : List Row) : ℚ :=
  ((ph.windowRows rows).map fun row => (row.byte : ℚ) * 8).sum

end Phase

/-- The samples of the phase are the entries of the timeline in the window, and their
mean in Mbps is the number of bits in the window over its length. -/
def AnalysisExact (raw : List Char) (totalEnd : ℚ) (ph : Phase) (rows : List Row) : Prop :=
  ∃ samples timeline, phaseSamples raw ph = some samples ∧
    fullTimeline raw totalEnd = some timeline ∧
    samples = timeline.filter (fun entry => ph.InWindow entry.1) ∧
    meanRaw (samples.map Prod.snd) = ph.windowBits rows / 10 ^ 6 / ph.windowLength

/-- The seconds from `lo` to just before `hi`. -/
def secondsFrom (lo hi : ℤ) : List ℚ := (List.range (hi - lo).toNat).map fun n : ℕ => (lo : ℚ) + n

/-- The rows of the window are those of all its seconds, in order. -/
structure CompleteWindow (ph : Phase) (rows : List Row) (start stop : ℤ) : Prop where
  seconds : (ph.windowRows rows).map (fun row => row.t0 - iperf3StartOffset) =
    secondsFrom (max 0 (start + 2)) (stop - 2)
  silent : start + 2 < 0 → ph.windowBits rows = 0

section Seconds

variable {lo hi : ℤ}

theorem mem_secondsFrom {t : ℚ} : t ∈ secondsFrom lo hi ↔ ∃ z : ℤ, t = z ∧ lo ≤ z ∧ z < hi := by
  rw [secondsFrom, List.mem_map]
  constructor
  · intro hmem
    obtain ⟨n, hn, rfl⟩ := hmem
    rw [List.mem_range] at hn
    exact ⟨lo + n, by push_cast; rfl, by omega, by omega⟩
  · intro hmem
    obtain ⟨z, rfl, hlo, hhi⟩ := hmem
    refine ⟨(z - lo).toNat, List.mem_range.mpr (by omega), ?_⟩
    have hcast : (((z - lo).toNat : ℤ) : ℚ) = z - lo := by
      rw [Int.toNat_of_nonneg (by omega)]
      push_cast
      rfl
    rw [← Int.cast_natCast, hcast]
    ring

theorem sorted_secondsFrom : (secondsFrom lo hi).Pairwise (· < ·) := by
  rw [secondsFrom, List.pairwise_map]
  exact List.pairwise_lt_range.imp fun hlt => add_lt_add_right (Nat.cast_lt.mpr hlt) _

theorem length_secondsFrom : (secondsFrom lo hi).length = (hi - lo).toNat := by
  simp [secondsFrom]

theorem eq_of_sorted {α : Type*} (key : α → ℚ) {l l' : List α}
    (hl : l.Pairwise fun a b => key a < key b) (hl' : l'.Pairwise fun a b => key a < key b)
    (hmem : ∀ a, a ∈ l ↔ a ∈ l') : l = l' := by
  have hnodup : ∀ {l : List α}, (l.Pairwise fun a b => key a < key b) → l.Nodup :=
    fun hl => hl.imp fun hlt heq => absurd (congrArg key heq) hlt.ne
  refine List.Perm.eq_of_pairwise (fun a b _ _ hab hba => absurd hab hba.not_gt) hl hl' ?_
  exact (List.perm_ext_iff_of_nodup (hnodup hl) (hnodup hl')).mpr hmem

end Seconds

/-! ## Rows of one second each -/

/-- The rows are distinct 1-second bins at integer times. -/
structure Bins (rows : List Row) : Prop where
  integer : ∀ row ∈ rows, ∃ n : ℤ, row.t0 = n ∧ row.t1 = n + 1
  distinct : (rows.map Row.t0).Nodup

/-- The entry of a row, in the time of the clients. -/
def Row.sample (row : Row) : ℚ × ℚ := (row.t0 - iperf3StartOffset, row.mbps)

theorem filterMap_eq_map_filter_of {α β : Type*} {f : α → Option β} {p : α → Prop}
    [DecidablePred p] {g : α → β} {l : List α}
    (hf : ∀ a ∈ l, f a = if p a then some (g a) else none) :
    l.filterMap f = (l.filter p).map g := by
  induction l with
  | nil => rfl
  | cons a l ih =>
      rw [List.forall_mem_cons] at hf
      rw [List.filterMap_cons, hf.1, ih hf.2]
      by_cases ha : p a
      · rw [if_pos ha, List.filter_cons_of_pos (by simpa using ha), List.map_cons]
      · rw [if_neg ha, List.filter_cons_of_neg (by simpa using ha)]

section Rows

variable {raw : List Char} {rows : List Row} {ph : Phase} {start stop : ℤ} {totalEnd : ℚ}

theorem inWindow_iff (hstart : ph.start = start) (hstop : ph.stop = stop) (z : ℤ) :
    ph.InWindow z ↔ start + 2 ≤ z ∧ z < stop - 2 := by
  rw [Phase.InWindow, hstart, hstop, trafficWarmupSkip, trafficCooldownSkip]
  norm_cast

theorem phaseSamples_eq (hrows : rowsOf raw = some rows) (hbins : Bins rows)
    (hstart : ph.start = start) (hstop : ph.stop = stop) :
    phaseSamples raw ph = some ((ph.windowRows rows).map Row.sample) := by
  rw [phaseSamples, parseTsharkIoStat, hrows, Option.map_some, Option.map_some, Option.some.injEq,
    List.map_filterMap]
  apply filterMap_eq_map_filter_of
  intro row hrow
  obtain ⟨n, ht0, ht1⟩ := hbins.integer row hrow
  have hwindow : ph.InWindow (row.t0 - iperf3StartOffset) ↔ start + 4 ≤ n ∧ n < stop := by
    have hcast : row.t0 - iperf3StartOffset = ((n - 2 : ℤ) : ℚ) := by
      rw [ht0, iperf3StartOffset]
      push_cast
      rfl
    rw [hcast, inWindow_iff hstart hstop]
    omega
  have hskip : (row.t1 ≤ row.t0 ∨ row.t0 < iperf3StartOffset + ph.start + trafficWarmupSkip ∨
      iperf3StartOffset + ph.stop - trafficCooldownSkip < row.t1) ↔
        ¬(start + 4 ≤ n ∧ n < stop) := by
    rw [ht0, ht1, hstart, hstop, iperf3StartOffset, trafficWarmupSkip, trafficCooldownSkip,
      show (2 : ℚ) + start + 2 = ((start + 4 : ℤ) : ℚ) by push_cast; ring,
      show (2 : ℚ) + stop - 2 = (stop : ℚ) by ring]
    norm_cast
    omega
  by_cases hin : start + 4 ≤ n ∧ n < stop
  · rw [if_neg (fun h => hskip.mp h hin), if_pos (hwindow.mpr hin), Option.map_some]
    rfl
  · rw [if_pos (hskip.mpr hin), if_neg (fun h => hin (hwindow.mp h)), Option.map_none]

/-- The rows which stage 8b keeps. -/
def clientRows (rows : List Row) : List (ℚ × ℚ) :=
  (rows.filter fun row => 0 ≤ row.t0 - iperf3StartOffset).map Row.sample

theorem fullTimeline_eq (hrows : rowsOf raw = some rows) (hbins : Bins rows) (totalEnd : ℚ) :
    fullTimeline raw totalEnd = some (zeroFill totalEnd (clientRows rows)) := by
  rw [fullTimeline, parseTsharkIoStatFull, hrows, Option.map_some, Option.map_some,
    Option.some.injEq]
  congr 1
  apply filterMap_eq_map_filter_of
  intro row hrow
  obtain ⟨n, ht0, ht1⟩ := hbins.integer row hrow
  rw [if_neg (by rw [ht0, ht1]; linarith)]
  by_cases hneg : row.t0 - iperf3StartOffset < 0
  · rw [if_pos hneg, if_neg (not_le.mpr hneg)]
  · rw [if_neg hneg, if_pos (not_lt.mp hneg)]
    rfl

/-! ## The timeline in the window -/

theorem mem_zeroFill {samples : List (ℚ × ℚ)} {entry : ℚ × ℚ} :
    entry ∈ zeroFill totalEnd samples ↔
      entry ∈ samples ∨ entry ∈ missingSeconds totalEnd samples := by
  rw [zeroFill, List.mem_insertionSort, List.mem_append]

theorem mem_missingSeconds {samples : List (ℚ × ℚ)} {entry : ℚ × ℚ} :
    entry ∈ missingSeconds totalEnd samples ↔ ∃ t : ℕ, entry = ((t : ℚ), 0) ∧
      t < (truncated totalEnd + truncated tsharkSettle).toNat ∧
      (t : ℚ) ∉ samples.map Prod.fst := by
  simp only [missingSeconds, List.mem_map, List.mem_filter, List.mem_range, decide_eq_true_eq]
  constructor
  · intro hentry
    obtain ⟨t, ⟨ht, hmissing⟩, rfl⟩ := hentry
    exact ⟨t, rfl, ht, hmissing⟩
  · intro hentry
    obtain ⟨t, rfl, ht, hmissing⟩ := hentry
    exact ⟨t, ⟨ht, hmissing⟩, rfl⟩

theorem sorted_zeroFill (hbins : Bins rows) (totalEnd : ℚ) :
    (zeroFill totalEnd (clientRows rows)).Pairwise fun a b => a.1 < b.1 := by
  have hsamples : ((clientRows rows).map Prod.fst).Nodup := by
    rw [clientRows, List.map_map]
    refine List.Nodup.of_map (fun t => t + iperf3StartOffset) ?_
    rw [List.map_map]
    have hshift : ((fun t => t + iperf3StartOffset) ∘ Prod.fst ∘ Row.sample) = Row.t0 := by
      funext row
      simp [Row.sample]
    rw [hshift]
    exact hbins.distinct.sublist (List.filter_sublist.map _)
  have hmissing : ((missingSeconds totalEnd (clientRows rows)).map Prod.fst).Nodup := by
    rw [missingSeconds, List.map_map]
    exact (List.nodup_range.filter _).map fun t t' heq => Nat.cast_injective heq
  have hdisjoint : ((clientRows rows).map Prod.fst).Disjoint
      ((missingSeconds totalEnd (clientRows rows)).map Prod.fst) := by
    intro t hsample hmiss
    obtain ⟨entry, hentry, rfl⟩ := List.mem_map.mp hmiss
    obtain ⟨n, rfl, -, hnot⟩ := mem_missingSeconds.mp hentry
    exact hnot hsample
  have hnodup : ((zeroFill totalEnd (clientRows rows)).map Prod.fst).Nodup := by
    rw [zeroFill, ((List.perm_insertionSort _ _).map _).nodup_iff, List.map_append]
    exact hsamples.append hmissing hdisjoint
  have hle : (zeroFill totalEnd (clientRows rows)).Pairwise fun a b => a.1 ≤ b.1 :=
    List.pairwise_insertionSort _ _
  exact hle.imp₂ (fun _ _ hle hne => lt_of_le_of_ne hle hne) (List.pairwise_map.mp hnodup)

theorem lt_missing_range {z : ℤ} (hz : 0 ≤ z) (hlt : z < stop - 2) (htotal : (stop : ℚ) ≤ totalEnd) :
    z.toNat < (truncated totalEnd + truncated tsharkSettle).toNat := by
  have habs := (abs_lt.mp (abs_sub_truncated_lt totalEnd)).2
  have hstop : (stop : ℚ) - 1 < truncated totalEnd := by linarith
  have hcast : stop - 1 < truncated totalEnd := by exact_mod_cast hstop
  have hsettle : truncated tsharkSettle = 4 := by decide +kernel
  omega

theorem exists_int_of_mem_zeroFill (hbins : Bins rows) {entry : ℚ × ℚ}
    (hmem : entry ∈ zeroFill totalEnd (clientRows rows)) : ∃ z : ℤ, entry.1 = z ∧ 0 ≤ z := by
  cases mem_zeroFill.mp hmem with
  | inl hsample =>
      obtain ⟨row, hrow, rfl⟩ := List.mem_map.mp hsample
      obtain ⟨hrow, hnonneg⟩ := List.mem_filter.mp hrow
      obtain ⟨n, ht0, -⟩ := hbins.integer row hrow
      have hcast : row.sample.1 = ((n - 2 : ℤ) : ℚ) := by
        rw [Row.sample, ht0, iperf3StartOffset]
        push_cast
        rfl
      have hnonneg' : 0 ≤ row.sample.1 := of_decide_eq_true hnonneg
      rw [hcast] at hnonneg'
      exact ⟨n - 2, hcast, by exact_mod_cast hnonneg'⟩
  | inr hmissing =>
      obtain ⟨n, rfl, -⟩ := mem_missingSeconds.mp hmissing
      exact ⟨n, by push_cast; rfl, by omega⟩

/-- In the window the timeline has one entry for every second from 0 on. -/
theorem keys_timeline (hbins : Bins rows) (hstart : ph.start = start) (hstop : ph.stop = stop)
    (htotal : (stop : ℚ) ≤ totalEnd) :
    ((zeroFill totalEnd (clientRows rows)).filter fun entry => ph.InWindow entry.1).map Prod.fst =
      secondsFrom (max 0 (start + 2)) (stop - 2) := by
  refine eq_of_sorted id ?_ sorted_secondsFrom fun t => ?_
  · rw [List.pairwise_map]
    exact (sorted_zeroFill hbins totalEnd).filter _
  rw [mem_secondsFrom]
  simp only [List.mem_map, List.mem_filter, decide_eq_true_eq]
  constructor
  · intro hentry
    obtain ⟨entry, ⟨hmem, hwindow⟩, rfl⟩ := hentry
    obtain ⟨z, hz, hnonneg⟩ := exists_int_of_mem_zeroFill hbins hmem
    rw [hz, inWindow_iff hstart hstop] at hwindow
    exact ⟨z, hz, by omega, hwindow.2⟩
  · intro hsecond
    obtain ⟨z, rfl, hlo, hhi⟩ := hsecond
    have hwindow : ph.InWindow z := (inWindow_iff hstart hstop z).mpr ⟨by omega, hhi⟩
    by_cases hsample : (z : ℚ) ∈ (clientRows rows).map Prod.fst
    · obtain ⟨entry, hentry, heq⟩ := List.mem_map.mp hsample
      exact ⟨entry, ⟨mem_zeroFill.mpr (Or.inl hentry), heq ▸ hwindow⟩, heq⟩
    · have hcast : ((z.toNat : ℕ) : ℚ) = z := by
        rw [← Int.cast_natCast, Int.toNat_of_nonneg (by omega)]
      refine ⟨((z.toNat : ℚ), 0), ⟨mem_zeroFill.mpr (Or.inr ?_), ?_⟩, hcast⟩
      · refine mem_missingSeconds.mpr ⟨z.toNat, rfl, lt_missing_range (by omega) hhi htotal, ?_⟩
        rwa [hcast]
      · simpa only [hcast] using hwindow

theorem map_sample_fst (ph : Phase) (rows : List Row) :
    ((ph.windowRows rows).map Row.sample).map Prod.fst =
      (ph.windowRows rows).map fun row => row.t0 - iperf3StartOffset := by
  rw [List.map_map]
  rfl

/-- A second from 0 on which has a row is in the client timeline with this row. -/
theorem sample_mem_clientRows {row : Row} (hrow : row ∈ rows) (hnonneg : 0 ≤ row.sample.1) :
    row.sample ∈ clientRows rows :=
  List.mem_map.mpr ⟨row, List.mem_filter.mpr ⟨hrow, decide_eq_true hnonneg⟩, rfl⟩

/-- If every second of the window has a row, no entry of the timeline there is filled in. -/
theorem mem_window_iff (hstart : ph.start = start) (hstop : ph.stop = stop) (hbins : Bins rows)
    (hseconds : ((ph.windowRows rows).map Row.sample).map Prod.fst =
      secondsFrom (max 0 (start + 2)) (stop - 2)) (entry : ℚ × ℚ) :
    entry ∈ (ph.windowRows rows).map Row.sample ↔
      entry ∈ zeroFill totalEnd (clientRows rows) ∧ ph.InWindow entry.1 := by
  constructor
  · intro hentry
    have hsecond : entry.1 ∈ secondsFrom (max 0 (start + 2)) (stop - 2) :=
      hseconds ▸ List.mem_map_of_mem hentry
    obtain ⟨z, hz, hlo, -⟩ := mem_secondsFrom.mp hsecond
    obtain ⟨row, hrow, rfl⟩ := List.mem_map.mp hentry
    obtain ⟨hrow, hwindow⟩ := List.mem_filter.mp hrow
    have hnonneg : 0 ≤ row.sample.1 := by
      rw [hz]
      exact_mod_cast (show 0 ≤ z by omega)
    exact ⟨mem_zeroFill.mpr (Or.inl (sample_mem_clientRows hrow hnonneg)),
      of_decide_eq_true hwindow⟩
  · intro hentry
    obtain ⟨hentry, hwindow⟩ := hentry
    cases mem_zeroFill.mp hentry with
    | inl hsample =>
        obtain ⟨row, hrow, rfl⟩ := List.mem_map.mp hsample
        refine List.mem_map.mpr ⟨row, List.mem_filter.mpr ⟨?_, decide_eq_true hwindow⟩, rfl⟩
        exact (List.mem_filter.mp hrow).1
    | inr hmissing =>
        obtain ⟨z, hz, hnonneg⟩ := exists_int_of_mem_zeroFill hbins hentry
        obtain ⟨n, rfl, -, hnot⟩ := mem_missingSeconds.mp hmissing
        have hmem : (n : ℚ) ∈ ((ph.windowRows rows).map Row.sample).map Prod.fst := by
          rw [hz, inWindow_iff hstart hstop] at hwindow
          rw [hseconds, mem_secondsFrom]
          exact ⟨z, hz, by omega, hwindow.2⟩
        obtain ⟨sample, hsample, heq⟩ := List.mem_map.mp hmem
        obtain ⟨row, hrow, rfl⟩ := List.mem_map.mp hsample
        have hclient := sample_mem_clientRows (List.mem_filter.mp hrow).1
          (heq.symm ▸ Nat.cast_nonneg n)
        exact absurd (List.mem_map.mpr ⟨_, hclient, heq⟩) hnot

theorem samples_eq_iff (hbins : Bins rows) (hstart : ph.start = start) (hstop : ph.stop = stop)
    (htotal : (stop : ℚ) ≤ totalEnd) :
    (ph.windowRows rows).map Row.sample =
        (zeroFill totalEnd (clientRows rows)).filter (fun entry => ph.InWindow entry.1) ↔
      (ph.windowRows rows).map (fun row => row.t0 - iperf3StartOffset) =
        secondsFrom (max 0 (start + 2)) (stop - 2) := by
  have hkeys := keys_timeline hbins hstart hstop htotal
  constructor
  · intro heq
    rw [← hkeys, ← heq, map_sample_fst]
  · intro hseconds
    rw [← map_sample_fst] at hseconds
    have hsorted : ((ph.windowRows rows).map Row.sample).Pairwise fun a b => a.1 < b.1 := by
      rw [← List.pairwise_map (f := Prod.fst) (R := (· < ·)), hseconds]
      exact sorted_secondsFrom
    refine eq_of_sorted Prod.fst hsorted ((sorted_zeroFill hbins totalEnd).filter _)
      fun entry => ?_
    rw [List.mem_filter, decide_eq_true_eq]
    exact mem_window_iff hstart hstop hbins hseconds entry

/-! ## The mean -/

theorem mbps_eq (hbins : Bins rows) {row : Row} (hrow : row ∈ rows) :
    row.mbps = (row.byte : ℚ) * 8 * (10 ^ 6)⁻¹ := by
  obtain ⟨n, ht0, ht1⟩ := hbins.integer row hrow
  rw [Row.mbps, ht0, ht1, add_sub_cancel_left, div_one, div_eq_mul_inv]

theorem sum_samples (hbins : Bins rows) (ph : Phase) :
    (((ph.windowRows rows).map Row.sample).map Prod.snd).sum = ph.windowBits rows / 10 ^ 6 := by
  rw [List.map_map, Phase.windowBits, div_eq_mul_inv, ← List.sum_map_mul_right]
  congr 1
  refine List.map_congr_left fun row hrow => ?_
  exact mbps_eq hbins (List.mem_filter.mp hrow).1

theorem meanRaw_iff {mbpsList : List ℚ} {bits : ℚ} {lo hi : ℤ}
    (hsum : mbpsList.sum = bits / 10 ^ 6) (hlength : mbpsList.length = (hi - max 0 lo).toNat) :
    meanRaw mbpsList = bits / 10 ^ 6 / ((hi : ℚ) - lo) ↔ (lo < 0 → bits = 0) := by
  unfold meanRaw
  split
  next hnil =>
    subst mbpsList
    have hbits : bits = 0 := by
      rw [List.sum_nil] at hsum
      linarith
    simp [hbits]
  next hne =>
    have hpos : 0 < mbpsList.length := List.length_pos_of_ne_nil hne
    have hcast : (mbpsList.length : ℚ) = hi - max 0 lo := by
      have hint : (mbpsList.length : ℤ) = hi - max 0 lo := by omega
      exact_mod_cast hint
    have hhi : 0 < hi - max 0 lo := by omega
    rw [hsum, hcast]
    cases lt_or_ge lo 0 with
    | inr hlo =>
        rw [max_eq_right hlo]
        exact iff_of_true rfl fun hneg => absurd hneg (not_lt.mpr hlo)
    | inl hlo =>
        have hlo' : (lo : ℚ) < 0 := by exact_mod_cast hlo
        have hhi' : (0 : ℚ) < hi := by
          rw [max_eq_left hlo.le, sub_zero] at hhi
          exact_mod_cast hhi
        rw [max_eq_left hlo.le, Int.cast_zero, sub_zero, div_eq_div_iff hhi'.ne' (by linarith)]
        constructor
        · intro heq _
          have hzero : bits / 10 ^ 6 * lo = 0 := by linarith
          cases mul_eq_zero.mp hzero with
          | inl hbits => linarith
          | inr hzero => exact absurd hzero hlo'.ne
        · intro hbits
          rw [hbits hlo]
          ring

/-- In a phase with integer boundaries the samples agree with the timeline if and only if
the rows of the window are complete. -/
theorem exact_iff_complete (hrows : rowsOf raw = some rows) (hbins : Bins rows)
    (hstart : ph.start = start) (hstop : ph.stop = stop) (htotal : (stop : ℚ) ≤ totalEnd) :
    AnalysisExact raw totalEnd ph rows ↔ CompleteWindow ph rows start stop := by
  have hsamples := phaseSamples_eq hrows hbins hstart hstop
  have htimeline := fullTimeline_eq hrows hbins totalEnd
  have hlength : ph.windowLength = ((stop - 2 : ℤ) : ℚ) - ((start + 2 : ℤ) : ℚ) := by
    rw [Phase.windowLength, hstart, hstop, trafficWarmupSkip, trafficCooldownSkip]
    push_cast
    ring
  have hmean : (ph.windowRows rows).map (fun row => row.t0 - iperf3StartOffset) =
      secondsFrom (max 0 (start + 2)) (stop - 2) →
      (meanRaw (((ph.windowRows rows).map Row.sample).map Prod.snd) =
        ph.windowBits rows / 10 ^ 6 / ph.windowLength ↔
          (start + 2 < 0 → ph.windowBits rows = 0)) := by
    intro hseconds
    rw [hlength]
    apply meanRaw_iff (sum_samples hbins ph)
    rw [List.length_map, List.length_map, ← List.length_map, hseconds, length_secondsFrom]
  constructor
  · rintro ⟨samples, timeline, hsamples', htimeline', heq, hraw⟩
    rw [hsamples, Option.some.injEq] at hsamples'
    rw [htimeline, Option.some.injEq] at htimeline'
    subst samples timeline
    have hseconds := (samples_eq_iff hbins hstart hstop htotal).mp heq
    exact ⟨hseconds, (hmean hseconds).mp hraw⟩
  · rintro ⟨hseconds, hsilent⟩
    exact ⟨_, _, hsamples, htimeline, (samples_eq_iff hbins hstart hstop htotal).mpr hseconds,
      (hmean hseconds).mpr hsilent⟩

end Rows

/-! ## Every phase of a run -/

/-- A phase in which a VN is active ends with the last session at the latest. -/
theorem stop_le_totalEnd {vns : Vns} {phases : List Phase} {ph : Phase} {totalEnd : ℚ}
    (hphases : vns.derivePhases = some phases) (hph : ph ∈ phases) (hactive : ph.isIdle = false)
    (htotal : vns.totalEnd = some totalEnd) : ph.stop ≤ totalEnd := by
  obtain ⟨table, htable, rfl⟩ := Option.map_eq_some_iff.mp hphases
  obtain ⟨p, hp, rfl⟩ := List.mem_map.mp hph
  have hne : (phaseOf table p.1 p.2).activeVnids ≠ [] := by
    intro hnil
    have hidle : (phaseOf table p.1 p.2).isIdle =
        decide ((phaseOf table p.1 p.2).activeVnids.length = 0) := rfl
    rw [hidle, hnil] at hactive
    exact absurd hactive (by decide)
  obtain ⟨v, hv⟩ := List.exists_mem_of_ne_nil _ hne
  obtain ⟨sess, hentry⟩ := mem_activeVnids.mp hv
  obtain ⟨sessions, htab, hfind⟩ := mem_flowMap.mp hentry
  have hsess := List.mem_of_find?_eq_some hfind
  have hcontains : sess.Contains ((p.1 + p.2) / 2) := by
    simpa using List.find?_some hfind
  have hboundary : sess.stop ∈ boundaries table := by
    simp only [boundaries, List.mem_insertionSort, List.mem_dedup, List.mem_flatMap]
    exact ⟨(v, sessions), htab, sess, hsess, by simp⟩
  have hsorted := sorted_boundaries table
  have hstop : p.2 ≤ sess.stop := by
    cases not_inside hsorted hp hboundary with
    | inr hle => exact hle
    | inl hle =>
        have hmid := within_midpoint (lt_of_adjacent hsorted hp)
        exact absurd (hcontains.2.trans_le hle) (not_lt.mpr hmid.1)
  rw [Vns.totalEnd, htable, Option.bind_some, List.max?_eq_some_iff] at htotal
  refine hstop.trans (htotal.2 _ ?_)
  exact List.mem_flatMap.mpr ⟨(v, sessions), htab, List.mem_map_of_mem hsess⟩

/-- For every phase of a run in which VNs are active and every block of 1-second bins, the
stored samples are the entries of the timeline in the window, with the mean of the window,
if and only if no second of the window lacks its row. -/
theorem analysis_samples_iff {vns : Vns} {phases : List Phase} {ph : Phase} {totalEnd : ℚ}
    {raw : List Char} {rows : List Row} {start stop : ℤ}
    (hphases : vns.derivePhases = some phases) (hph : ph ∈ phases) (hactive : ph.isIdle = false)
    (htotal : vns.totalEnd = some totalEnd) (hstart : ph.start = start) (hstop : ph.stop = stop)
    (hrows : rowsOf raw = some rows) (hbins : Bins rows) :
    AnalysisExact raw totalEnd ph rows ↔ CompleteWindow ph rows start stop :=
  exact_iff_complete hrows hbins hstart hstop
    (hstop ▸ stop_le_totalEnd hphases hph hactive htotal)

/-! ## A second without traffic -/

theorem bins_of_seconds {seconds : List (ℤ × ℕ)} (hnodup : (seconds.map Prod.fst).Nodup) :
    Bins (seconds.map fun s => ⟨s.1, s.1 + 1, s.2⟩) := by
  constructor
  · intro row hrow
    obtain ⟨s, -, rfl⟩ := List.mem_map.mp hrow
    exact ⟨s.1, rfl, rfl⟩
  · have hcast := hnodup.map (Int.cast_injective (α := ℚ))
    rw [List.map_map] at hcast ⊢
    exact hcast

def tenSeconds : Vns where
  items := [(1, ⟨some [⟨0, 10, .udp, some "1M".toList, none⟩]⟩)]
  nodup := by decide

def tenSecondsPhase : Phase := phaseOf [(1, [⟨0, 10, .udp, some "1M".toList, none⟩])] 0 10

theorem derivePhases_tenSeconds : tenSeconds.derivePhases = some [tenSecondsPhase] := by
  decide +kernel

/-- The block of a VN which sends nothing in the seventh second of the capture. -/
def pausedBlock : List Char :=
  Text.unlines ["| Col 1: ip.src == 10.0.0.1        |".toList,
    "|  4 <>  5 |     85 |   125000 |".toList, "|  5 <>  6 |     85 |   125000 |".toList,
    "|  7 <>  8 |     85 |   125000 |".toList, "|  8 <>  9 |     85 |   125000 |".toList,
    "|  9 <> 10 |     85 |   125000 |".toList]

def pausedRows : List Row :=
  [(4, 125000), (5, 125000), (7, 125000), (8, 125000), (9, 125000)].map fun s : ℤ × ℕ =>
    ⟨s.1, s.1 + 1, s.2⟩

theorem bins_pausedRows : Bins pausedRows := bins_of_seconds (by decide)

theorem rowsOf_pausedBlock : rowsOf pausedBlock = some pausedRows := by decide +kernel

/-- The five samples have the mean 1, but the window has six seconds. -/
theorem analysis_samples_paused :
    tenSeconds.validate = none ∧ tenSeconds.derivePhases = some [tenSecondsPhase] ∧
      validatePhases [tenSecondsPhase] = none ∧ tenSeconds.totalEnd = some 10 ∧
      tenSecondsPhase.activeVnids = [1] ∧ tenSecondsPhase.start = 0 ∧
      tenSecondsPhase.stop = 10 ∧ rowsOf pausedBlock = some pausedRows ∧ Bins pausedRows ∧
      phaseSamples pausedBlock tenSecondsPhase =
        some [(2, 1), (3, 1), (5, 1), (6, 1), (7, 1)] ∧
      ((fullTimeline pausedBlock 10).map fun timeline =>
        timeline.filter fun entry => tenSecondsPhase.InWindow entry.1) =
          some [(2, 1), (3, 1), (4, 0), (5, 1), (6, 1), (7, 1)] ∧
      ¬AnalysisExact pausedBlock 10 tenSecondsPhase pausedRows := by
  have hsamples : phaseSamples pausedBlock tenSecondsPhase =
      some [(2, 1), (3, 1), (5, 1), (6, 1), (7, 1)] := by
    rw [phaseSamples, parseTsharkIoStat, rowsOf_pausedBlock]
    decide +kernel
  have htimeline : ((fullTimeline pausedBlock 10).map fun timeline =>
      timeline.filter fun entry => tenSecondsPhase.InWindow entry.1) =
        some [(2, 1), (3, 1), (4, 0), (5, 1), (6, 1), (7, 1)] := by
    rw [fullTimeline, parseTsharkIoStatFull, rowsOf_pausedBlock]
    decide +kernel
  refine ⟨by decide +kernel, derivePhases_tenSeconds, by decide +kernel, by decide +kernel,
    by decide +kernel, rfl, rfl, rowsOf_pausedBlock, bins_pausedRows, hsamples, htimeline, ?_⟩
  rintro ⟨samples, timeline, hsamples', htimeline', heq, -⟩
  rw [hsamples, Option.some.injEq] at hsamples'
  rw [htimeline', Option.map_some, Option.some.injEq, ← heq, ← hsamples'] at htimeline
  exact absurd htimeline (by decide)

theorem analysis_samples_iff_paused :
    AnalysisExact pausedBlock 10 tenSecondsPhase pausedRows ↔
      CompleteWindow tenSecondsPhase pausedRows 0 10 :=
  analysis_samples_iff derivePhases_tenSeconds (List.mem_singleton_self _) (by decide +kernel)
    (by decide +kernel) rfl rfl rowsOf_pausedBlock bins_pausedRows

end RunTest

end Cmcs
