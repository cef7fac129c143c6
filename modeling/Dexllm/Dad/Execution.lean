import Dexllm.Dad.DefUse

/-!
Executions of a method at the level of its instructions. A point is a node and
the number of its instructions that have been executed. An exception leaves a
covered node after any of its instructions; the chains see it leave at the end.
-/

namespace Dexllm.Dad

open Relation

variable {α V : Type}

abbrev Point (α : Type) := α × Nat

/-- The points of a node of `len` instructions an exception can leave from. -/
def anyExit (k len : Nat) : Prop := 0 < k ∧ k ≤ len

/-- The point the analysis lets an exception leave from. -/
def endExit (k len : Nat) : Prop := k = len

/-- One step of an execution, through instructions `keep` admits only. -/
inductive MethodCode.Step (m : MethodCode α V) (exits : Nat → Nat → Prop)
    (keep : IRForm V → Prop) : Point α → Point α → Prop
  | next {v : α} {k : Nat} {ins : IRForm V} (hins : (m.ins v)[k]? = some ins)
      (hkeep : keep ins) : m.Step exits keep (v, k) (v, k + 1)
  | leave {v w : α} (hw : w ∈ m.graph.sucs v) : m.Step exits keep (v, (m.ins v).length) (w, 0)
  | caught {v h : α} {k : Nat} (hh : h ∈ m.graph.catchEdges.sucs v)
      (hk : exits k (m.ins v).length) : m.Step exits keep (v, k) (h, 0)

namespace MethodCode

/-- The point can be reached by an execution of the method. -/
def Executes (m : MethodCode α V) (p : Point α) : Prop :=
  ∃ e, m.graph.entry = some e ∧ ReflTransGen (m.Step anyExit fun _ => True) (e, 0) p

/-- Some execution leads from one point to the other and does not overwrite the
variable. -/
def Carries (m : MethodCode α V) (exits : Nat → Nat → Prop) (var : V) : Point α → Point α → Prop :=
  ReflTransGen (m.Step exits fun ins => ins.lhs ≠ some var)

/-- Of the instructions from `i` to before `j` none defines the variable. -/
def Quiet (m : MethodCode α V) (var : V) (v : α) (i j : Nat) : Prop :=
  ∀ k ins, i ≤ k → k < j → (m.ins v)[k]? = some ins → ins.lhs ≠ some var

variable {m : MethodCode α V} {exits : Nat → Nat → Prop} {var : V} {v w : α} {i j k : Nat}

theorem Quiet.refl : m.Quiet var v i i := fun _ _ hi hj => absurd (lt_of_le_of_lt hi hj) (lt_irrefl i)

theorem Quiet.carries (h : m.Quiet var v i j) (hij : i ≤ j) (hj : j ≤ (m.ins v).length) :
    m.Carries exits var (v, i) (v, j) := by
  induction j, hij using Nat.le_induction with
  | base => exact ReflTransGen.refl
  | succ j hij ih =>
    have hlt : j < (m.ins v).length := hj
    have hins : (m.ins v)[j]? = some (m.ins v)[j] := List.getElem?_eq_getElem hlt
    have hquiet : m.Quiet var v i j := fun k ins hik hkj => h k ins hik (Nat.lt_succ_of_lt hkj)
    exact (ih hquiet hlt.le).tail
      (Step.next hins (h j _ hij (Nat.lt_succ_self j) hins))

theorem Quiet.next {ins : IRForm V} (h : m.Quiet var v i j) (hins : (m.ins v)[j]? = some ins)
    (hlhs : ins.lhs ≠ some var) : m.Quiet var v i (j + 1) := by
  intro k ins' hik hkj hins'
  rcases Nat.lt_succ_iff_lt_or_eq.mp hkj with hlt | rfl
  · exact h k ins' hik hlt hins'
  · obtain rfl := Option.some.inj (hins.symm.trans hins')
    exact hlhs

end MethodCode

end Dexllm.Dad
