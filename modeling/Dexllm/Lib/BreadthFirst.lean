import Mathlib.Data.List.Nodup
import Mathlib.Data.List.Perm.Subperm
import Mathlib.Logic.Relation

/-!
A queue that is extended while it is read: every vertex is entered once, when its first
predecessor is read.
-/

namespace BreadthFirst

variable {α : Type} [DecidableEq α]

def enqueue (queue : List α) (t : α) : List α := if t ∈ queue then queue else queue ++ [t]

/-- The vertices in the order they are entered; `head` is the next one to read. -/
def search (succs : α → List α) : (rounds head : Nat) → List α → List α
  | 0, _, queue => queue
  | rounds + 1, head, queue =>
    match queue[head]? with
    | none => queue
    | some v => search succs rounds (head + 1) ((succs v).foldl enqueue queue)

def Reaches (succs : α → List α) : α → α → Prop := Relation.ReflTransGen fun a b => b ∈ succs a

variable {succs : α → List α}

theorem mem_foldl_enqueue {queue : List α} {v : α} (ts : List α) :
    v ∈ ts.foldl enqueue queue ↔ v ∈ queue ∨ v ∈ ts := by
  induction ts generalizing queue with
  | nil => simp
  | cons t ts ih =>
    rw [List.foldl_cons, ih, List.mem_cons, enqueue]
    split
    · constructor
      · exact fun h => h.imp_right Or.inr
      · rintro (h | rfl | h)
        · exact Or.inl h
        · exact Or.inl ‹_›
        · exact Or.inr h
    · simp [or_assoc]

theorem prefix_foldl_enqueue (queue ts : List α) : queue <+: ts.foldl enqueue queue := by
  induction ts generalizing queue with
  | nil => exact List.prefix_rfl
  | cons t ts ih =>
    refine List.IsPrefix.trans ?_ (ih (enqueue queue t))
    unfold enqueue
    split
    · exact List.prefix_rfl
    · exact List.prefix_append _ _

theorem nodup_foldl_enqueue {queue : List α} (h : queue.Nodup) (ts : List α) :
    (ts.foldl enqueue queue).Nodup := by
  induction ts generalizing queue with
  | nil => exact h
  | cons t ts ih =>
    refine ih ?_
    unfold enqueue
    split
    · exact h
    · rename_i hnew
      rw [← List.concat_eq_append]
      exact List.Nodup.concat hnew h

theorem nodup_search {rounds head : Nat} {queue : List α} (h : queue.Nodup) :
    (search succs rounds head queue).Nodup := by
  induction rounds generalizing head queue with
  | zero => exact h
  | succ rounds ih =>
    unfold search
    split
    · exact h
    · exact ih (nodup_foldl_enqueue h _)

theorem reaches_of_mem_search {start : α} {rounds head : Nat} {queue : List α}
    (h : ∀ v ∈ queue, Reaches succs start v) :
    ∀ v ∈ search succs rounds head queue, Reaches succs start v := by
  induction rounds generalizing head queue with
  | zero => exact h
  | succ rounds ih =>
    unfold search
    split
    · exact h
    · rename_i u hu
      refine ih fun v hv => ?_
      obtain hv | hv := (mem_foldl_enqueue _).mp hv
      · exact h v hv
      · exact (h u (List.mem_of_getElem? hu)).tail hv

theorem mem_search_of_mem {rounds head : Nat} {queue : List α} {v : α} (h : v ∈ queue) :
    v ∈ search succs rounds head queue := by
  induction rounds generalizing head queue with
  | zero => exact h
  | succ rounds ih =>
    unfold search
    split
    · exact h
    · exact ih ((mem_foldl_enqueue _).mpr (Or.inl h))

/-- With a round for each vertex and one more, the queue is closed under successors. -/
theorem closed_search {space : List α} (hspace : ∀ v, ∀ t ∈ succs v, t ∈ space)
    {rounds head : Nat} {queue : List α} (hnodup : queue.Nodup) (hqueue : ∀ v ∈ queue, v ∈ space)
    (hread : ∀ v ∈ queue.take head, ∀ t ∈ succs v, t ∈ queue)
    (hrounds : space.length < rounds + head) :
    ∀ v ∈ search succs rounds head queue, ∀ t ∈ succs v, t ∈ search succs rounds head queue := by
  induction rounds generalizing head queue with
  | zero =>
    have hlen : queue.length ≤ head := by
      have := (hnodup.subperm hqueue).length_le
      omega
    rw [List.take_of_length_le hlen] at hread
    exact hread
  | succ rounds ih =>
    unfold search
    split
    · rename_i hnone
      rw [List.take_of_length_le (List.getElem?_eq_none_iff.mp hnone)] at hread
      exact hread
    · rename_i u hu
      have hpre := prefix_foldl_enqueue queue (succs u)
      have hhead : head < queue.length := (List.getElem?_eq_some_iff.mp hu).1
      refine ih (nodup_foldl_enqueue hnodup _) ?_ ?_ (by omega)
      · intro v hv
        obtain hv | hv := (mem_foldl_enqueue _).mp hv
        · exact hqueue v hv
        · exact hspace u v hv
      · intro v hv t ht
        have htake : ((succs u).foldl enqueue queue).take (head + 1) = queue.take (head + 1) := by
          obtain ⟨more, hmore⟩ := hpre
          rw [← hmore, List.take_append_of_le_length (by omega)]
        rw [htake, List.take_add_one, hu] at hv
        obtain hv | hv := List.mem_append.mp hv
        · exact hpre.subset (hread v hv t ht)
        · obtain rfl : v = u := by simpa using hv
          exact (mem_foldl_enqueue _).mpr (Or.inr ht)

/-- The search from a vertex enters the vertices it reaches. -/
theorem mem_search_iff {space : List α} (hspace : ∀ v, ∀ t ∈ succs v, t ∈ space) {start : α}
    (hstart : start ∈ space) {rounds : Nat} (hrounds : space.length < rounds) {v : α} :
    v ∈ search succs rounds 0 [start] ↔ Reaches succs start v := by
  constructor
  · refine reaches_of_mem_search (fun u hu => ?_) v
    rw [List.mem_singleton.mp hu]
    exact .refl
  · intro h
    induction h with
    | refl => exact mem_search_of_mem (List.mem_singleton_self start)
    | tail _ hstep ih =>
      refine closed_search hspace (List.nodup_singleton start) ?_ ?_ hrounds _ ih _ hstep
      · exact fun u hu => List.mem_singleton.mp hu ▸ hstart
      · simp

end BreadthFirst
