import Mathlib.Logic.Basic

/-!
Guarded computations: programs over untrusted memory that either return, give
the input up with a reason, throw, or fault by touching a byte they may not
touch. `wp` is the weakest precondition in which giving up is fine and
faulting is not, so one specification of a routine both rules the fault out
and says what its normal return establishes.
-/

namespace Guarded

/-- The three ways a guarded computation stops early. -/
inductive Halt where
  | reject (reason : String)
  | thrown (what : String)
  | oob
  deriving DecidableEq, Repr

/-- A computation that returns a value or halts. -/
abbrev Run (α : Type) := Except Halt α

variable {α β σ : Type}

/-- Give the input up with a reason. -/
def fail (reason : String) : Run α := .error (.reject reason)

/-- Give the input up when `c` holds. -/
def failIf (c : Prop) [Decidable c] (reason : String) : Run Unit :=
  if c then fail reason else .ok ()

/-- Run `m` only when `c` holds. -/
def onlyIf (c : Prop) [Decidable c] (m : Run Unit) : Run Unit := if c then m else .ok ()

/-- Use the value of an optional result, giving up when there is none. -/
def orFail (o : Option α) (reason : String) : Run α :=
  match o with
  | some a => .ok a
  | none => fail reason

/-- `f i`, `f (i + 1)`, ... for `k` rounds, threading a state. -/
def loopFrom (f : Nat → σ → Run σ) : (k i : Nat) → σ → Run σ
  | 0, _, s => .ok s
  | k + 1, i, s => f i s >>= loopFrom f k (i + 1)

/-- The counted loop `for (i = 0; i < n; ++i)`. -/
def loop (n : Nat) (s : σ) (f : Nat → σ → Run σ) : Run σ := loopFrom f n 0 s

/-- The results of `f 0`, ..., `f (n - 1)`, in order. -/
def collect (n : Nat) (f : Nat → Run α) : Run (List α) :=
  loop n [] fun i acc => do
    let a ← f i
    pure (acc ++ [a])

/-- The counted loop with no state of its own. -/
def forUpTo (n : Nat) (f : Nat → Run Unit) : Run Unit := loop n () fun i _ => f i

/-- Weakest precondition: every normal return satisfies `post`, and no run
faults. Rejections and throws satisfy any postcondition. -/
def wp (m : Run α) (post : α → Prop) : Prop :=
  match m with
  | .ok a => post a
  | .error .oob => False
  | .error _ => True

@[simp] theorem wp_pure (a : α) (post : α → Prop) : wp (pure a) post ↔ post a := Iff.rfl

@[simp] theorem wp_except_ok (a : α) (post : α → Prop) :
    wp (Except.ok a) post ↔ post a := Iff.rfl

@[simp] theorem wp_fail (reason : String) (post : α → Prop) : wp (fail reason) post := trivial

@[simp] theorem wp_thrown (what : String) (post : α → Prop) :
    wp (.error (.thrown what)) post := trivial

@[simp] theorem wp_oob (post : α → Prop) : wp (.error .oob) post ↔ False := Iff.rfl

@[simp] theorem wp_bind (m : Run α) (f : α → Run β) (post : β → Prop) :
    wp (m >>= f) post ↔ wp m fun a => wp (f a) post := by
  cases m with
  | ok a => exact Iff.rfl
  | error e => cases e <;> exact Iff.rfl

@[simp] theorem wp_failIf (c : Prop) [Decidable c] (reason : String) (post : Unit → Prop) :
    wp (failIf c reason) post ↔ (¬c → post ()) := by
  by_cases h : c <;> simp [failIf, h]

@[simp] theorem wp_orFail (o : Option α) (reason : String) (post : α → Prop) :
    wp (orFail o reason) post ↔ ∀ a, o = some a → post a := by
  cases o <;> simp [orFail]

@[simp] theorem wp_ite (c : Prop) [Decidable c] (m k : Run α) (post : α → Prop) :
    wp (if c then m else k) post ↔ (c → wp m post) ∧ (¬c → wp k post) := by
  by_cases h : c <;> simp [h]

@[simp] theorem wp_onlyIf (c : Prop) [Decidable c] (m : Run Unit) (post : Unit → Prop) :
    wp (onlyIf c m) post ↔ (c → wp m post) ∧ (¬c → post ()) := by
  simp [onlyIf]

theorem wp_mono {m : Run α} {post post' : α → Prop} (h : wp m post)
    (hpost : ∀ a, post a → post' a) : wp m post' := by
  cases m with
  | ok a => exact hpost a h
  | error e => cases e <;> exact h

/-- A halt that is no fault is none at any other type either. -/
theorem wp_error {e : Halt} {post : α → Prop} {post' : β → Prop}
    (h : wp (.error e : Run α) post) : wp (.error e : Run β) post' := by
  cases e <;> exact h

/-- What a specification says about a run that returned. -/
theorem post_of_ok {m : Run α} {post : α → Prop} {a : α} (h : wp m post)
    (hok : m = .ok a) : post a := by
  subst hok
  exact h

theorem ne_oob_of_wp {m : Run α} {post : α → Prop} (h : wp m post) :
    m ≠ .error .oob := by
  rintro rfl
  exact h

/-- The invariant rule for a counted loop that starts in the middle. -/
theorem wp_loopFrom {f : Nat → σ → Run σ} (inv : Nat → σ → Prop) (k i : Nat) (s : σ)
    (hinit : inv i s)
    (hstep : ∀ j s, i ≤ j → j < i + k → inv j s → wp (f j s) (inv (j + 1))) :
    wp (loopFrom f k i s) (inv (i + k)) := by
  induction k generalizing i s with
  | zero => exact hinit
  | succ k ih =>
    simp only [loopFrom, wp_bind]
    refine wp_mono (hstep i s (Nat.le_refl i) (by omega) hinit) fun s' hs' => ?_
    have hrest := ih (i + 1) s' hs' fun j t hj hjk => hstep j t (by omega) (by omega)
    rwa [show i + 1 + k = i + (k + 1) by omega] at hrest

/-- The invariant rule for a counted loop. -/
theorem wp_loop {n : Nat} {s : σ} {f : Nat → σ → Run σ} (inv : Nat → σ → Prop)
    (hinit : inv 0 s) (hstep : ∀ j s, j < n → inv j s → wp (f j s) (inv (j + 1))) :
    wp (loop n s f) (inv n) := by
  have h := wp_loopFrom inv n 0 s hinit fun j t _ hj => hstep j t (by omega)
  rwa [Nat.zero_add] at h

/-- A stateless loop establishes what each of its rounds establishes. -/
theorem wp_forUpTo {n : Nat} {f : Nat → Run Unit} {post : Nat → Prop}
    (h : ∀ i, i < n → wp (f i) fun _ => post i) :
    wp (forUpTo n f) fun _ => ∀ i, i < n → post i := by
  refine wp_loop (fun j _ => ∀ i, i < j → post i) (by intro i hi; omega) ?_
  intro j _ hj hinv
  refine wp_mono (h j hj) fun _ hpost i hi => ?_
  rcases Nat.lt_succ_iff_lt_or_eq.mp hi with hlt | rfl
  · exact hinv i hlt
  · exact hpost

theorem loopFrom_succ (f : Nat → σ → Run σ) (k i : Nat) (s : σ) :
    loopFrom f (k + 1) i s = loopFrom f k i s >>= f (i + k) := by
  induction k generalizing i s with
  | zero =>
    change (f i s >>= fun t => .ok t) = f (i + 0) s
    cases f i s <;> rfl
  | succ k ih =>
    rw [loopFrom]
    conv => rhs; rw [loopFrom]
    cases f i s with
    | error e => rfl
    | ok t =>
      rw [show i + (k + 1) = i + 1 + k by omega]
      exact ih (i + 1) t

/-- The last round of a counted loop. -/
theorem loop_succ (f : Nat → σ → Run σ) (n : Nat) (s : σ) :
    loop (n + 1) s f = loop n s f >>= f n := by
  have h := loopFrom_succ f n 0 s
  rwa [Nat.zero_add] at h

/-- A collected list has what each round establishes at each place. -/
theorem wp_collect {n : Nat} {f : Nat → Run α} {post : Nat → α → Prop}
    (h : ∀ i, i < n → wp (f i) (post i)) :
    wp (collect n f) fun l => l.length = n ∧ ∀ i a, l[i]? = some a → post i a := by
  refine wp_loop (fun j (l : List α) => l.length = j ∧ ∀ i a, l[i]? = some a → post i a)
    ⟨rfl, by simp⟩ ?_
  rintro j l hj ⟨hlen, hall⟩
  rw [wp_bind]
  refine wp_mono (h j hj) fun a ha => ?_
  refine ⟨by simp [hlen], fun i b hb => ?_⟩
  rcases Nat.lt_trichotomy i l.length with hlt | heq | hgt
  · exact hall i b (by rwa [List.getElem?_append_left hlt] at hb)
  · rw [heq, List.getElem?_concat_length] at hb
    obtain rfl := Option.some.inj hb
    rwa [heq, hlen]
  · rw [List.getElem?_eq_none (by simp; omega)] at hb
    cases hb

@[simp] theorem bind_ok (a : α) (f : α → Run β) :
    (Except.ok a >>= f : Run β) = f a := rfl

@[simp] theorem bind_error (e : Halt) (f : α → Run β) :
    (Except.error e >>= f : Run β) = .error e := rfl

theorem pure_eq_ok (a : α) : (pure a : Run α) = .ok a := rfl

/-- A bind that returned is two runs that returned. -/
theorem bind_eq_ok {m : Run α} {f : α → Run β} {b : β} :
    (m >>= f) = .ok b ↔ ∃ a, m = .ok a ∧ f a = .ok b := by
  cases m with
  | ok a => simp
  | error e => simp

/-- A loop all of whose rounds return. -/
theorem exists_loop {n : Nat} {s : σ} {f : Nat → σ → Run σ} (inv : Nat → σ → Prop)
    (hinit : inv 0 s) (hstep : ∀ j s, j < n → inv j s → ∃ s', f j s = .ok s' ∧ inv (j + 1) s') :
    ∃ s', loop n s f = .ok s' ∧ inv n s' := by
  induction n with
  | zero => exact ⟨s, rfl, hinit⟩
  | succ n ih =>
    obtain ⟨t, ht, hinv⟩ := ih fun j u hj => hstep j u (by omega)
    obtain ⟨t', ht', hinv'⟩ := hstep n t (by omega) hinv
    exact ⟨t', by rw [loop_succ, ht, bind_ok, ht'], hinv'⟩

/-- What the rounds of a loop that returned preserve, it preserves. -/
theorem loop_invariant {n : Nat} {s t : σ} {f : Nat → σ → Run σ} (inv : Nat → σ → Prop)
    (h : loop n s f = .ok t) (hinit : inv 0 s)
    (hstep : ∀ j s s', j < n → inv j s → f j s = .ok s' → inv (j + 1) s') : inv n t := by
  induction n generalizing t with
  | zero =>
    obtain rfl := Except.ok.inj h
    exact hinit
  | succ n ih =>
    rw [loop_succ, bind_eq_ok] at h
    obtain ⟨s', hrun, hlast⟩ := h
    exact hstep n s' t (by omega)
      (ih hrun fun j u u' hj => hstep j u u' (by omega)) hlast

/-- A row of total computations. -/
theorem exists_mapM [Inhabited β] {f : α → Run β} {xs : List α}
    (h : ∀ x ∈ xs, ∃ y, f x = .ok y) :
    ∃ g : α → β, (∀ x ∈ xs, f x = .ok (g x)) ∧ xs.mapM f = .ok (xs.map g) := by
  have hvalue (x : α) (hx : x ∈ xs) : f x = .ok ((f x).toOption.getD default) := by
    obtain ⟨y, hy⟩ := h x hx
    rw [hy]
    rfl
  refine ⟨fun x => (f x).toOption.getD default, hvalue, ?_⟩
  clear h
  induction xs with
  | nil => rfl
  | cons x xs ih =>
    rw [List.mapM_cons, hvalue x List.mem_cons_self, bind_ok,
      ih fun x hx => hvalue x (List.mem_cons_of_mem _ hx), bind_ok]
    rfl

/-- Every result of a mapped computation is the result at some element. -/
theorem mem_of_mapM_eq_ok {f : α → Run β} {l : List α} {bs : List β} {b : β}
    (h : l.mapM f = .ok bs) (hb : b ∈ bs) : ∃ a ∈ l, f a = .ok b := by
  induction l generalizing bs with
  | nil =>
    obtain rfl := Except.ok.inj h
    cases hb
  | cons a l ih =>
    rw [List.mapM_cons] at h
    obtain ⟨b', ha, h⟩ := bind_eq_ok.mp h
    obtain ⟨bs', hl, h⟩ := bind_eq_ok.mp h
    obtain rfl := Except.ok.inj h
    rcases List.mem_cons.mp hb with rfl | hb
    · exact ⟨a, List.mem_cons_self, ha⟩
    · obtain ⟨a', ha', hrun⟩ := ih hl hb
      exact ⟨a', List.mem_cons_of_mem a ha', hrun⟩

/-- A loop none of whose rounds halts collects what each of them returns. -/
theorem collect_eq {n : Nat} {f : Nat → Run α} {g : Nat → α} (h : ∀ i, i < n → f i = .ok (g i)) :
    collect n f = .ok ((List.range n).map g) := by
  unfold collect
  induction n with
  | zero => rfl
  | succ n ih =>
    rw [loop_succ, ih fun i hi => h i (by omega), bind_ok, h n (by omega), bind_ok,
      List.range_succ, List.map_append]
    rfl

theorem failIf_eq_ok {c : Prop} [Decidable c] {reason : String} {u : Unit} :
    failIf c reason = .ok u ↔ ¬c := by
  by_cases h : c <;> simp [failIf, fail, h]

theorem orFail_eq_ok {o : Option α} {reason : String} {a : α} :
    orFail o reason = .ok a ↔ o = some a := by
  cases o <;> simp [orFail, fail]

/-- Every normal return of `m` is one of `k`: `k` makes fewer checks. -/
def Below (m k : Run α) : Prop := ∀ a, m = .ok a → k = .ok a

section Below

variable {m k : Run α} {f g : α → Run β}

theorem below_refl (m : Run α) : Below m m := fun _ h => h

theorem below_bind (hm : Below m k) (hf : ∀ a, Below (f a) (g a)) :
    Below (m >>= f) (k >>= g) := by
  intro b hb
  obtain ⟨a, ha, hb⟩ := bind_eq_ok.mp hb
  exact bind_eq_ok.mpr ⟨a, hm a ha, hf a b hb⟩

theorem below_ite {c : Prop} [Decidable c] {m' k' : Run α} (h : Below m k) (h' : Below m' k') :
    Below (if c then m else m') (if c then k else k') := by
  by_cases hc : c
  · rwa [if_pos hc, if_pos hc]
  · rwa [if_neg hc, if_neg hc]

theorem below_onlyIf {c : Prop} [Decidable c] {m k : Run Unit} (h : Below m k) :
    Below (onlyIf c m) (onlyIf c k) := below_ite h (below_refl _)

theorem below_loop {f g : Nat → σ → Run σ} (h : ∀ i s, Below (f i s) (g i s)) (n : Nat) (s : σ) :
    Below (loop n s f) (loop n s g) := by
  induction n generalizing s with
  | zero => exact below_refl _
  | succ n ih =>
    rw [loop_succ, loop_succ]
    exact below_bind (ih s) fun t => h n t

end Below

/-! Guarded computations over a scratch that outlives them: what they wrote
before they halted stays written. -/

/-- A guarded computation over a scratch of type `σ`. -/
def Scratch (σ α : Type) := σ → Run α × σ

namespace Scratch

def lift (m : Run α) : Scratch σ α := fun st => (m, st)

def get : Scratch σ σ := fun st => (.ok st, st)

def set (st : σ) : Scratch σ Unit := fun _ => (.ok (), st)

/-- Run `f` on the result and the scratch of a computation that returned. -/
def andThen (r : Run α × σ) (f : α → Scratch σ β) : Run β × σ :=
  match r with
  | (.ok a, st) => f a st
  | (.error e, st) => (.error e, st)

instance : Monad (Scratch σ) where
  pure a := fun st => (.ok a, st)
  bind m f := fun st => andThen (m st) f

variable {m : Scratch σ α} {f : α → Scratch σ β} {st st' : σ}

@[simp] theorem pure_apply (a : α) (st : σ) : (pure a : Scratch σ α) st = (.ok a, st) := rfl

@[simp] theorem lift_apply (m : Run α) (st : σ) : (lift m : Scratch σ α) st = (m, st) := rfl

@[simp] theorem get_apply (st : σ) : (get : Scratch σ σ) st = (.ok st, st) := rfl

@[simp] theorem set_apply (st st' : σ) : set st st' = (.ok (), st) := rfl

theorem bind_apply (m : Scratch σ α) (f : α → Scratch σ β) (st : σ) :
    (m >>= f) st = andThen (m st) f := rfl

@[simp] theorem andThen_ok (a : α) (st : σ) (f : α → Scratch σ β) :
    andThen (.ok a, st) f = f a st := rfl

@[simp] theorem andThen_error (e : Halt) (st : σ) (f : α → Scratch σ β) :
    andThen (.error e, st) f = (.error e, st) := rfl

theorem bind_of_ok {a : α} (h : m st = (.ok a, st')) : (m >>= f) st = f a st' := by
  rw [bind_apply, h, andThen_ok]

/-- A lifted computation reads no scratch. -/
@[simp] theorem lift_bind_apply (m : Run α) (f : α → Scratch σ β) (st : σ) :
    (lift m >>= f) st = andThen (m, st) f := rfl

theorem wp_bind {post : β → Prop} :
    wp ((m >>= f) st).1 post ↔ wp (m st).1 fun a => wp (f a (m st).2).1 post := by
  rw [bind_apply]
  rcases m st with ⟨r, st'⟩
  cases r with
  | ok a => exact Iff.rfl
  | error e => cases e <;> exact Iff.rfl

/-- A continuation that leaves the scratch alone leaves it as it was. -/
theorem bind_scratch (hf : ∀ a st, (f a st).2 = st) : ((m >>= f) st).2 = (m st).2 := by
  rw [bind_apply]
  rcases m st with ⟨r, st'⟩
  cases r with
  | ok a => exact hf a st'
  | error e => rfl

/-- `m` keeps an invariant of the scratch, whatever its outcome. -/
def Keeps (inv : σ → Prop) (m : Scratch σ α) : Prop := ∀ st, inv st → inv (m st).2

theorem keeps_pure (inv : σ → Prop) (a : α) : Keeps inv (pure a : Scratch σ α) := fun _ h => h

theorem keeps_lift (inv : σ → Prop) (m : Run α) : Keeps inv (lift m : Scratch σ α) :=
  fun _ h => h

theorem keeps_bind {inv : σ → Prop} (hm : Keeps inv m) (hf : ∀ a, Keeps inv (f a)) :
    Keeps inv (m >>= f) := by
  intro st hst
  have hnext := hm st hst
  rw [bind_apply]
  rcases hrun : m st with ⟨r, st'⟩
  rw [hrun] at hnext
  cases r with
  | ok a => exact hf a st' hnext
  | error e => exact hnext

end Scratch

end Guarded
