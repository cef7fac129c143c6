import Mathlib.Data.List.Nodup

/-!
Maps as lists of entries. Under distinct keys a list looks up exactly its entries.
-/

namespace Association

variable {α β : Type} {entries : List (α × β)} {k : α} {v : β}

section Lookup

variable [BEq α] [LawfulBEq α]

theorem mem_of_lookup (h : entries.lookup k = some v) : (k, v) ∈ entries := by
  obtain ⟨before, after, rfl, -⟩ := List.lookup_eq_some_iff.mp h
  simp

theorem lookup_eq_none_iff : entries.lookup k = none ↔ ∀ e ∈ entries, e.1 ≠ k := by
  rw [List.lookup_eq_none_iff]
  refine forall₂_congr fun e _ => ?_
  rw [bne_iff_ne, ne_eq, ne_eq, eq_comm]

theorem lookup_isSome_iff : (entries.lookup k).isSome = true ↔ ∃ e ∈ entries, e.1 = k := by
  rw [Option.isSome_iff_ne_none, ne_eq, lookup_eq_none_iff]
  simp

theorem lookup_of_mem (hkeys : (entries.map Prod.fst).Nodup) (h : (k, v) ∈ entries) :
    entries.lookup k = some v := by
  induction entries with
  | nil => cases h
  | cons e entries ih =>
    obtain ⟨hhead, htail⟩ := List.nodup_cons.mp hkeys
    obtain rfl | hrest := List.mem_cons.mp h
    · exact List.lookup_cons_self
    · have hne : k ≠ e.1 := fun heq => hhead (heq ▸ List.mem_map_of_mem hrest)
      rw [List.lookup_cons, beq_eq_false_iff_ne.mpr hne]
      exact ih htail hrest

/-- A key whose entries agree looks up what they agree on. -/
theorem lookup_of_unique (hmem : (k, v) ∈ entries) (h : ∀ v', (k, v') ∈ entries → v' = v) :
    entries.lookup k = some v := by
  obtain ⟨v', hv'⟩ := Option.isSome_iff_exists.mp (lookup_isSome_iff.mpr ⟨_, hmem, rfl⟩)
  rw [hv', h v' (mem_of_lookup hv')]

/-- A filter that keeps a key's entries keeps its lookup. -/
theorem lookup_filter {keep : α × β → Bool} (h : ∀ v, keep (k, v) = true) :
    (entries.filter keep).lookup k = entries.lookup k := by
  induction entries with
  | nil => rfl
  | cons e entries ih =>
    obtain ⟨k', v'⟩ := e
    by_cases hk : k = k'
    · subst hk
      rw [List.filter_cons_of_pos (h v'), List.lookup_cons_self, List.lookup_cons_self]
    · have hne : (k == k') = false := beq_eq_false_iff_ne.mpr hk
      rw [List.filter_cons]
      split
      · rw [List.lookup_cons, List.lookup_cons, hne]
        exact ih
      · rw [List.lookup_cons, hne]
        exact ih

theorem lookup_map {γ : Type} (f : α × β → γ) :
    (entries.map fun e => (e.1, f e)).lookup k = (entries.lookup k).map fun v => f (k, v) := by
  induction entries with
  | nil => rfl
  | cons e entries ih =>
    obtain ⟨k', v⟩ := e
    rw [List.map_cons, List.lookup_cons, List.lookup_cons]
    by_cases hk : k = k'
    · subst hk
      simp
    · rw [beq_eq_false_iff_ne.mpr hk]
      exact ih

/-- Keys may be renamed where no two become one. -/
theorem lookup_map_key {α' γ : Type} [BEq α'] [LawfulBEq α'] {ρ : α → α'}
    (hρ : Function.Injective ρ) (f : β → γ) :
    (entries.map (Prod.map ρ f)).lookup (ρ k) = (entries.lookup k).map f := by
  induction entries with
  | nil => rfl
  | cons e entries ih =>
    obtain ⟨k', v⟩ := e
    rw [List.map_cons, Prod.map_apply]
    by_cases hk : k = k'
    · subst hk
      rw [List.lookup_cons_self, List.lookup_cons_self]
      rfl
    · rw [List.lookup_cons, List.lookup_cons, beq_eq_false_iff_ne.mpr hk,
        beq_eq_false_iff_ne.mpr (hρ.ne hk)]
      exact ih

/-- Distinct entries are looked up alike from either end. -/
theorem lookup_reverse (hkeys : (entries.map Prod.fst).Nodup) :
    entries.reverse.lookup k = entries.lookup k := by
  have hkeys' : (entries.reverse.map Prod.fst).Nodup := by
    rw [List.map_reverse]
    exact List.nodup_reverse.mpr hkeys
  cases hlookup : entries.lookup k with
  | some v => exact lookup_of_mem hkeys' (List.mem_reverse.mpr (mem_of_lookup hlookup))
  | none =>
    rw [lookup_eq_none_iff] at hlookup ⊢
    exact fun e he => hlookup e (List.mem_reverse.mp he)

end Lookup

/-- The keys that have a value. -/
theorem mem_keysOf [DecidableEq β] :
    k ∈ (entries.filter fun e => e.2 = v).map Prod.fst ↔ (k, v) ∈ entries := by
  simp only [List.mem_map, List.mem_filter, decide_eq_true_eq]
  constructor
  · rintro ⟨⟨_, _⟩, ⟨hmem, rfl⟩, rfl⟩
    exact hmem
  · exact fun h => ⟨(k, v), ⟨h, rfl⟩, rfl⟩

/-- The values that a key has. -/
theorem mem_valuesOf [DecidableEq α] :
    v ∈ (entries.filter fun e => e.1 = k).map Prod.snd ↔ (k, v) ∈ entries := by
  simp only [List.mem_map, List.mem_filter, decide_eq_true_eq]
  constructor
  · rintro ⟨⟨_, _⟩, ⟨hmem, rfl⟩, rfl⟩
    exact hmem
  · exact fun h => ⟨(k, v), ⟨h, rfl⟩, rfl⟩

end Association
