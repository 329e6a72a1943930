import Mathlib.Data.BitVec
import Mathlib.Data.List.Nodup
import Mathlib.Tactic

/-!
# Match tables

Tables with exact keys and tables which match the longest prefix.  When no two entries
have the same key, a lookup finds what the set of entries says, in whatever order they
have been inserted.
-/

namespace MatchTable

variable {κ α : Type*}

/-! ## Exact match -/

def exact [DecidableEq κ] (entries : List (κ × α)) (key : κ) : Option α :=
  (entries.find? fun e => e.1 = key).map Prod.snd

theorem exact_eq_some [DecidableEq κ] {entries : List (κ × α)}
    (hkeys : (entries.map Prod.fst).Nodup) {key : κ} {a : α} :
    exact entries key = some a ↔ (key, a) ∈ entries := by
  induction entries with
  | nil => simp [exact]
  | cons e entries ih =>
      obtain ⟨key', a'⟩ := e
      rw [List.map_cons, List.nodup_cons] at hkeys
      by_cases hkey : key' = key
      · subst hkey
        have hother : (key', a) ∉ entries := fun hmem =>
          hkeys.1 (List.mem_map.mpr ⟨_, hmem, rfl⟩)
        simp [exact, hother, eq_comm]
      · have hrest := ih hkeys.2
        rw [exact, List.find?_cons_of_neg (by simpa using hkey), ← exact, hrest]
        simp [Ne.symm hkey]

/-! ## Longest prefix match -/

/-- The first `n` bits of a word, as a number. -/
def leading {w : ℕ} (n : ℕ) (x : BitVec w) : BitVec w := x >>> (w - n)

structure LpmEntry (w : ℕ) (α : Type*) where
  value : BitVec w
  prefixLen : ℕ
  prefixLen_le : prefixLen ≤ w
  action : α

variable {w : ℕ}

namespace LpmEntry

def Matches (e : LpmEntry w α) (x : BitVec w) : Prop :=
  leading e.prefixLen x = leading e.prefixLen e.value

instance (e : LpmEntry w α) (x : BitVec w) : Decidable (e.Matches x) :=
  inferInstanceAs (Decidable (_ = _))

/-- Entries with the same key match the same words. -/
def key (e : LpmEntry w α) : ℕ × BitVec w := (e.prefixLen, leading e.prefixLen e.value)

end LpmEntry

/-- The better of two matches. -/
def longer (e : LpmEntry w α) : Option (LpmEntry w α) → LpmEntry w α
  | some e' => if e.prefixLen < e'.prefixLen then e' else e
  | none => e

def longest (x : BitVec w) : List (LpmEntry w α) → Option (LpmEntry w α)
  | [] => none
  | e :: entries => if e.Matches x then some (longer e (longest x entries)) else longest x entries

def lpm (entries : List (LpmEntry w α)) (x : BitVec w) : Option α :=
  (longest x entries).map LpmEntry.action

/-- What `longest` finds. -/
structure IsLongest (x : BitVec w) (entries : List (LpmEntry w α)) (e : LpmEntry w α) :
    Prop where
  mem : e ∈ entries
  hit : e.Matches x
  longest : ∀ e' ∈ entries, e'.Matches x → e'.prefixLen ≤ e.prefixLen

theorem longest_eq_none {x : BitVec w} {entries : List (LpmEntry w α)} :
    longest x entries = none ↔ ∀ e ∈ entries, ¬e.Matches x := by
  induction entries with
  | nil => simp [longest]
  | cons e entries ih =>
      by_cases hmatch : e.Matches x
      · simp [longest, hmatch]
      · simp [longest, hmatch, ih]

theorem isLongest_of_longest {x : BitVec w} {entries : List (LpmEntry w α)}
    {e : LpmEntry w α} (hlongest : longest x entries = some e) : IsLongest x entries e := by
  induction entries generalizing e with
  | nil => simp [longest] at hlongest
  | cons first entries ih =>
      rw [longest] at hlongest
      split at hlongest
      next hmatch =>
        cases hrest : longest x entries with
        | none =>
            rw [hrest] at hlongest
            obtain rfl := Option.some.inj hlongest
            refine ⟨by simp [longer], hmatch, fun e' he' hmatch' => ?_⟩
            rcases List.mem_cons.mp he' with rfl | he'
            · exact le_rfl
            · exact absurd hmatch' (longest_eq_none.mp hrest e' he')
        | some best =>
            have hbest := ih hrest
            rw [hrest] at hlongest
            obtain rfl := Option.some.inj hlongest
            change IsLongest x _ (if first.prefixLen < best.prefixLen then best else first)
            split
            next hlt =>
              refine ⟨List.mem_cons_of_mem _ hbest.mem, hbest.hit, fun e' he' hmatch' => ?_⟩
              rcases List.mem_cons.mp he' with rfl | he'
              · exact hlt.le
              · exact hbest.longest e' he' hmatch'
            next hle =>
              refine ⟨by simp, hmatch, fun e' he' hmatch' => ?_⟩
              rcases List.mem_cons.mp he' with rfl | he'
              · exact le_rfl
              · exact (hbest.longest e' he' hmatch').trans (not_lt.mp hle)
      next hmiss =>
        have hbest := ih hlongest
        refine ⟨List.mem_cons_of_mem _ hbest.mem, hbest.hit, fun e' he' hmatch' => ?_⟩
        rcases List.mem_cons.mp he' with rfl | he'
        · exact absurd hmatch' hmiss
        · exact hbest.longest e' he' hmatch'

theorem eq_of_key_eq {entries : List (LpmEntry w α)} (hkeys : (entries.map LpmEntry.key).Nodup)
    {e e' : LpmEntry w α} (he : e ∈ entries) (he' : e' ∈ entries) (hkey : e.key = e'.key) :
    e = e' :=
  List.inj_on_of_nodup_map hkeys he he' hkey

theorem longest_eq_some {entries : List (LpmEntry w α)}
    (hkeys : (entries.map LpmEntry.key).Nodup) {x : BitVec w} {e : LpmEntry w α} :
    longest x entries = some e ↔ IsLongest x entries e := by
  refine ⟨isLongest_of_longest, fun he => ?_⟩
  cases hlongest : longest x entries with
  | none => exact absurd he.hit (longest_eq_none.mp hlongest e he.mem)
  | some best =>
      have hbest := isLongest_of_longest hlongest
      have hlen : best.prefixLen = e.prefixLen :=
        le_antisymm (he.longest best hbest.mem hbest.hit) (hbest.longest e he.mem he.hit)
      have hleading : leading best.prefixLen best.value = leading e.prefixLen e.value :=
        hbest.hit.symm.trans (by rw [hlen]; exact he.hit)
      rw [eq_of_key_eq hkeys hbest.mem he.mem (Prod.ext hlen hleading)]

theorem lpm_perm {entries entries' : List (LpmEntry w α)}
    (hkeys : (entries.map LpmEntry.key).Nodup) (hperm : entries.Perm entries') (x : BitVec w) :
    lpm entries x = lpm entries' x := by
  have hkeys' : (entries'.map LpmEntry.key).Nodup := (hperm.map LpmEntry.key).nodup_iff.mp hkeys
  have hsame : ∀ e, longest x entries = some e ↔ longest x entries' = some e := by
    intro e
    rw [longest_eq_some hkeys, longest_eq_some hkeys']
    constructor
    · rintro ⟨hmem, hhit, hlongest⟩
      exact ⟨hperm.mem_iff.mp hmem, hhit, fun e' he' => hlongest e' (hperm.mem_iff.mpr he')⟩
    · rintro ⟨hmem, hhit, hlongest⟩
      exact ⟨hperm.mem_iff.mpr hmem, hhit, fun e' he' => hlongest e' (hperm.mem_iff.mp he')⟩
  rw [lpm, lpm, Option.ext hsame]

theorem exact_perm [DecidableEq κ] {entries entries' : List (κ × α)}
    (hkeys : (entries.map Prod.fst).Nodup) (hperm : entries.Perm entries') (key : κ) :
    exact entries key = exact entries' key := by
  have hkeys' : (entries'.map Prod.fst).Nodup := (hperm.map Prod.fst).nodup_iff.mp hkeys
  refine Option.ext fun a => ?_
  rw [exact_eq_some hkeys, exact_eq_some hkeys', hperm.mem_iff]

end MatchTable
