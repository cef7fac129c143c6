import Mathlib.Data.List.Infix
import Mathlib.Data.List.Nodup
import Mathlib.Data.List.Perm.Lattice

/-!
Recency: of the uses of some keys, latest first, `lastUses` is the keys in the
order of their last use. The most recently used keys are a prefix of it, and
stay one when a key is used again, when a new key is used and when the last of
them are dropped.
-/

namespace Recency

variable {κ : Type} [BEq κ]

/-- The keys of `uses`, latest use first, each once. -/
def lastUses : List κ → List κ
  | [] => []
  | k :: uses => k :: (lastUses uses).erase k

@[simp] theorem lastUses_nil : lastUses ([] : List κ) = [] := rfl

/-- The most recently used keys. -/
def MostRecent (keys uses : List κ) : Prop := keys <+: lastUses uses

theorem MostRecent.nil {uses : List κ} : MostRecent [] uses := List.nil_prefix

theorem MostRecent.take {keys uses : List κ} (h : MostRecent keys uses) (n : Nat) :
    MostRecent (keys.take n) uses :=
  (List.take_prefix n keys).trans h

variable [LawfulBEq κ]

theorem nodup_lastUses (uses : List κ) : (lastUses uses).Nodup := by
  induction uses with
  | nil => exact .nil
  | cons k uses ih => exact List.nodup_cons.mpr ⟨ih.not_mem_erase, ih.erase k⟩

/-- Of two keys the one used last comes first. -/
theorem lastUses_pairwise (uses : List κ) :
    (lastUses uses).Pairwise fun k l => uses.idxOf k < uses.idxOf l := by
  induction uses with
  | nil => exact .nil
  | cons m uses ih =>
    have hnodup := nodup_lastUses uses
    have hidx {k : κ} (hk : k ∈ (lastUses uses).erase m) :
        (m :: uses).idxOf k = uses.idxOf k + 1 := by
      have hne : m ≠ k := by
        rintro rfl
        exact hnodup.not_mem_erase hk
      exact List.idxOf_cons_ne uses hne
    refine List.pairwise_cons.mpr ⟨fun k hk => ?_, ?_⟩
    · rw [List.idxOf_cons_self, hidx hk]
      omega
    · refine (ih.sublist (List.erase_sublist)).imp_of_mem fun hk hl hlt => ?_
      rw [hidx hk, hidx hl]
      omega

variable {keys uses : List κ} {k : κ}

theorem MostRecent.pairwise (h : MostRecent keys uses) :
    keys.Pairwise fun k l => uses.idxOf k < uses.idxOf l :=
  (lastUses_pairwise uses).sublist h.sublist

/-- One of the keys is used again. -/
theorem MostRecent.touch (h : MostRecent keys uses) (hk : k ∈ keys) :
    MostRecent (k :: keys.erase k) (k :: uses) := by
  obtain ⟨rest, hrest⟩ := h
  refine ⟨rest, ?_⟩
  rw [lastUses, ← hrest, List.erase_append_left rest hk, List.cons_append]

/-- Another key is used. -/
theorem MostRecent.insert (h : MostRecent keys uses) (hk : k ∉ keys) :
    MostRecent (k :: keys) (k :: uses) := by
  obtain ⟨rest, hrest⟩ := h
  refine ⟨rest.erase k, ?_⟩
  rw [lastUses, ← hrest, List.erase_append_right rest hk, List.cons_append]

section Entries

/-!
Lists of entries, each under its own key.
-/

theorem map_erase_of_nodup {α β : Type} [BEq α] [LawfulBEq α] [BEq β] [LawfulBEq β] {f : α → β}
    {l : List α} {a : α} (hnodup : (l.map f).Nodup) (ha : a ∈ l) :
    (l.erase a).map f = (l.map f).erase (f a) := by
  induction l with
  | nil => simp at ha
  | cons b l ih =>
    rw [List.map_cons, List.nodup_cons] at hnodup
    by_cases heq : b = a
    · simp [heq]
    · have ha : a ∈ l := by simpa [Ne.symm heq] using ha
      have hne : f b ≠ f a := fun h => hnodup.1 (h ▸ List.mem_map_of_mem ha)
      rw [List.erase_cons_tail (by simpa using heq), List.map_cons, List.map_cons,
        List.erase_cons_tail (by simpa using hne), ih hnodup.2 ha]

theorem mem_map_dropLast {α β : Type} {f : α → β} {l : List α} {a : α} {b : β}
    (hnodup : (l.map f).Nodup) (hlast : l.getLast? = some a) :
    b ∈ l.dropLast.map f ↔ b ∈ l.map f ∧ b ≠ f a := by
  obtain ⟨l, rfl⟩ := List.getLast?_eq_some_iff.mp hlast
  rw [List.map_append, List.map_singleton, List.nodup_append] at hnodup
  rw [List.dropLast_concat, List.map_append, List.map_singleton, List.mem_append,
    List.mem_singleton]
  constructor
  · intro hb
    exact ⟨.inl hb, hnodup.2.2 b hb (f a) (List.mem_singleton_self _)⟩
  · rintro ⟨hb | hb, hne⟩
    · exact hb
    · exact absurd hb hne

end Entries

end Recency
