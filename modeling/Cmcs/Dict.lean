import Mathlib.Data.List.Forall2
import Mathlib.Data.List.Nodup
import Mathlib.Tactic

/-!
# Dictionaries

A dictionary as the list of its items in the order of insertion.  With distinct keys
a lookup finds exactly the items of the list.
-/

namespace Dict

variable {κ α β : Type*}

/-- `items[key] = a` -/
def insert [DecidableEq κ] (items : List (κ × α)) (key : κ) (a : α) : List (κ × α) :=
  if key ∈ items.map Prod.fst then
    items.map fun item => if item.1 = key then (key, a) else item
  else items ++ [(key, a)]

/-- A dictionary comprehension: a key which comes again keeps its place and takes the
later value. -/
def ofList [DecidableEq κ] (items : List (κ × α)) : List (κ × α) :=
  items.foldl (fun dict item => insert dict item.1 item.2) []

/-- `items[key] = f(items[key])` for a key of the dictionary. -/
def modify [DecidableEq κ] (items : List (κ × α)) (key : κ) (f : α → α) : List (κ × α) :=
  items.map fun item => if item.1 = key then (key, f item.2) else item

theorem ofList_eq_self [DecidableEq κ] {items : List (κ × α)}
    (hnodup : (items.map Prod.fst).Nodup) : ofList items = items := by
  have hfold : ∀ first last : List (κ × α), ((first ++ last).map Prod.fst).Nodup →
      last.foldl (fun dict item => insert dict item.1 item.2) first = first ++ last := by
    intro first last
    induction last generalizing first with
    | nil => simp
    | cons item last ih =>
        intro hnodup
        have hfresh : item.1 ∉ first.map Prod.fst := by
          rw [List.map_append, List.nodup_append'] at hnodup
          exact fun hmem => hnodup.2.2 hmem (by simp)
        rw [List.foldl_cons, insert, if_neg hfresh, Prod.mk.eta, ih _ (by simpa using hnodup)]
        simp
  exact hfold [] items hnodup

theorem modify_modify [DecidableEq κ] (items : List (κ × α)) (key : κ) (f g : α → α) :
    modify (modify items key f) key g = modify items key fun a => g (f a) := by
  rw [modify, modify, List.map_map]
  refine List.map_congr_left fun item _ => ?_
  rw [Function.comp_apply]
  by_cases hkey : item.1 = key
  · rw [if_pos hkey, if_pos hkey, if_pos rfl]
  · rw [if_neg hkey, if_neg hkey, if_neg hkey]

theorem lookup_map_snd [DecidableEq κ] (items : List (κ × α)) (key : κ) (f : α → β) :
    (items.map fun item => (item.1, f item.2)).lookup key = (items.lookup key).map f := by
  induction items with
  | nil => rfl
  | cons item items ih =>
      obtain ⟨key', a⟩ := item
      rw [List.map_cons, List.lookup_cons, List.lookup_cons, ih]
      cases key == key' <;> rfl

theorem lookup_modify [DecidableEq κ] (items : List (κ × α)) (key key' : κ) (f : α → α) :
    (modify items key f).lookup key' =
      if key' = key then (items.lookup key').map f else items.lookup key' := by
  induction items with
  | nil => simp [modify]
  | cons item items ih =>
      obtain ⟨key₀, a⟩ := item
      rw [modify, List.map_cons, ← modify]
      by_cases hkey : key₀ = key
      · subst key₀
        rw [if_pos rfl, List.lookup_cons, List.lookup_cons, ih]
        by_cases heq : key' = key
        · simp [heq]
        · simp [beq_eq_false_iff_ne.mpr heq, heq]
      · rw [if_neg hkey, List.lookup_cons, List.lookup_cons, ih]
        by_cases heq : key' = key₀
        · subst key₀
          simp [hkey]
        · simp [beq_eq_false_iff_ne.mpr heq]

theorem lookup_eq_some_iff [BEq κ] [LawfulBEq κ] {items : List (κ × α)}
    (hnodup : (items.map Prod.fst).Nodup) {key : κ} {a : α} :
    items.lookup key = some a ↔ (key, a) ∈ items := by
  induction items with
  | nil => simp
  | cons item items ih =>
      obtain ⟨key', a'⟩ := item
      rw [List.map_cons, List.nodup_cons] at hnodup
      rw [List.lookup_cons, List.mem_cons, Prod.mk.injEq]
      by_cases hkey : key = key'
      · subst key'
        have habsent : (key, a) ∉ items := fun hmem =>
          hnodup.1 (List.mem_map.mpr ⟨(key, a), hmem, rfl⟩)
        simp [habsent, eq_comm]
      · rw [beq_eq_false_iff_ne.mpr hkey, ih hnodup.2]
        simp [hkey]

theorem lookup_eq_none_iff [BEq κ] [LawfulBEq κ] {items : List (κ × α)} {key : κ} :
    items.lookup key = none ↔ key ∉ items.map Prod.fst := by
  rw [List.lookup_eq_none_iff]
  simp only [List.mem_map, bne_iff_ne, ne_eq, not_exists, not_and]
  exact ⟨fun habsent item hitem heq => habsent item hitem heq.symm,
    fun habsent item hitem heq => habsent item hitem heq.symm⟩

/-- Reading a value from every entry, which may be missing in some. -/
theorem mapM_values {items : List (κ × α)} {f : α → Option β} {values : List (κ × β)}
    (hvalues : (items.mapM fun item => (f item.2).map fun b => (item.1, b)) = some values) :
    values.map Prod.fst = items.map Prod.fst ∧
      ∀ key b, (key, b) ∈ values ↔ ∃ a, (key, a) ∈ items ∧ f a = some b := by
  induction items generalizing values with
  | nil =>
      rw [List.mapM_nil, Option.pure_def, Option.some.injEq] at hvalues
      subst values
      simp
  | cons item items ih =>
      obtain ⟨key', a'⟩ := item
      rw [List.mapM_cons, Option.bind_eq_bind, Option.bind_eq_some_iff] at hvalues
      obtain ⟨first, hfirst, hrest⟩ := hvalues
      rw [Option.bind_eq_bind, Option.bind_eq_some_iff] at hrest
      obtain ⟨rest, hrest, heq⟩ := hrest
      rw [Option.pure_def, Option.some.injEq] at heq
      obtain ⟨b', hb', rfl⟩ := Option.map_eq_some_iff.mp hfirst
      subst values
      obtain ⟨hkeys, hmem⟩ := ih hrest
      refine ⟨by rw [List.map_cons, List.map_cons, hkeys], fun key b => ?_⟩
      simp only [List.mem_cons, Prod.mk.injEq, hmem]
      constructor
      · intro hitem
        cases hitem with
        | inl heq => exact ⟨a', Or.inl ⟨heq.1, rfl⟩, heq.2 ▸ hb'⟩
        | inr hlater =>
            obtain ⟨a, ha, hb⟩ := hlater
            exact ⟨a, Or.inr ha, hb⟩
      · intro hitem
        obtain ⟨a, ha, hb⟩ := hitem
        cases ha with
        | inl heq =>
            obtain ⟨rfl, rfl⟩ := heq
            exact Or.inl ⟨rfl, Option.some.inj (hb.symm.trans hb')⟩
        | inr hlater => exact Or.inr ⟨a, hlater, hb⟩

theorem filter_eq_singleton [DecidableEq β] {f : α → β} {l : List α} {a : α}
    (hnodup : (l.map f).Nodup) (ha : a ∈ l) : l.filter (fun b => f b = f a) = [a] := by
  induction l with
  | nil => simp at ha
  | cons b l ih =>
      rw [List.map_cons, List.nodup_cons] at hnodup
      cases List.mem_cons.mp ha with
      | inl heq =>
          subst b
          rw [List.filter_cons_of_pos (by simp), List.cons_inj_right, List.filter_eq_nil_iff]
          intro c hc heq
          rw [decide_eq_true_eq] at heq
          exact hnodup.1 (heq ▸ List.mem_map_of_mem hc)
      | inr hmem =>
          rw [List.filter_cons_of_neg, ih hnodup.2 hmem]
          rw [decide_eq_true_eq]
          exact fun heq => hnodup.1 (heq ▸ List.mem_map_of_mem hmem)

end Dict
