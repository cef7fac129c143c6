import Dexllm.Dad.InvokeOperands

/-!
Which registers the operands of a call are. Parameters take the listed registers from left to
right, and `GetArgs` picks the first one of each.
-/

namespace Dexllm

open Guarded Bytes

/-- The registers a parameter takes. -/
def registersOf (p : Text) : Nat := if p = ascii "J" ∨ p = ascii "D" then 2 else 1

/-- The registers in front of parameter `i`. -/
def registersBefore (ps : List Text) (i : Nat) : Nat := ((ps.take i).map registersOf).sum

theorem getTypeSize_eq {p : Text} (h : IsDescriptor p) : getTypeSize p = registersOf p := by
  obtain ⟨array, core, rfl, hcore⟩ := h
  cases array with
  | succ array =>
    rw [List.replicate_succ, List.cons_append]
    simp [getTypeSize, registersOf, ascii]
  | zero =>
    obtain ⟨c, rfl, -⟩ | ⟨name, rfl, -⟩ := hcore
    · simp [getTypeSize, registersOf, ascii]
    · simp [getTypeSize, registersOf, ascii]

namespace Vmap

variable {vmap vmap' : Vmap} {k : Text} {x y : Variable}

/-- The variable of a name. -/
def Files (vmap : Vmap) (k : Text) (x : Variable) : Prop := vmap.entries.lookup k = some x

theorem Files.id (h : vmap.Files k x) : x.v = k :=
  vmap.keyed _ (Association.mem_of_lookup h)

theorem Files.unique {k' : Text} (hx : vmap.Files k x) (hy : vmap.Files k' y) (h : x.v = y.v) :
    x = y := by
  obtain rfl : k = k' := by rw [← hx.id, h, hy.id]
  exact Option.some.inj (hx.symm.trans hy)

/-- Nothing that is filed is refiled. -/
def Extends (vmap' vmap : Vmap) : Prop := ∀ k x, vmap.Files k x → vmap'.Files k x

theorem Extends.trans {vmap'' : Vmap} (h : vmap'.Extends vmap) (h' : vmap''.Extends vmap') :
    vmap''.Extends vmap := fun k x hx => h' k x (h k x hx)

theorem getVariable_spec (vmap : Vmap) (k : Text) :
    (vmap.getVariable k).2.Files k (vmap.getVariable k).1 ∧
      (vmap.getVariable k).2.Extends vmap := by
  unfold getVariable
  cases h : vmap.entries.lookup k with
  | some v => exact ⟨h, fun _ _ hx => hx⟩
  | none =>
    refine ⟨List.lookup_cons_self, fun k' x hx => ?_⟩
    have hne : k' ≠ k := by
      rintro rfl
      cases h.symm.trans hx
    show List.lookup k' ((k, _) :: vmap.entries) = some x
    rw [List.lookup_cons, beq_eq_false_iff_ne.mpr hne]
    exact hx

/-- The variables of some names, each filed under its own. -/
theorem getVariables_spec (vmap : Vmap) (names : List Text) :
    List.Forall₂ ((vmap.getVariables names).2.Files) names (vmap.getVariables names).1 ∧
      (vmap.getVariables names).2.Extends vmap := by
  induction names generalizing vmap with
  | nil => exact ⟨.nil, fun _ _ hx => hx⟩
  | cons k names ih =>
    obtain ⟨hfiled, hext⟩ := getVariable_spec vmap k
    obtain ⟨hrest, hext'⟩ := ih (vmap.getVariable k).2
    exact ⟨.cons (hext' _ _ hfiled) hrest, hext.trans hext'⟩

variable {ps largs : List Text} {numParam : Nat}

theorem getTypeSize_pos (p : Text) : 0 < getTypeSize p := by
  unfold getTypeSize
  split
  · exact Nat.one_pos
  · split
    · exact Nat.two_pos
    · exact Nat.one_pos

/-- Where the names last for all parameters, each gets the first of its own. -/
theorem pickArgs_eq (h : numParam + (ps.map getTypeSize).sum ≤ largs.length) :
    (pickArgs ps numParam largs).length = ps.length ∧ ∀ i < ps.length,
      (pickArgs ps numParam largs)[i]? =
        largs[numParam + ((ps.take i).map getTypeSize).sum]? := by
  induction ps generalizing numParam with
  | nil => exact ⟨rfl, fun i hi => absurd hi (Nat.not_lt_zero i)⟩
  | cons p ps ih =>
    rw [List.map_cons, List.sum_cons, ← Nat.add_assoc] at h
    have hhere : numParam < largs.length := by
      have := getTypeSize_pos p
      omega
    obtain ⟨hlen, hget⟩ := ih h
    rw [pickArgs, List.getElem?_eq_getElem hhere]
    refine ⟨congrArg (· + 1) hlen, fun i hi => ?_⟩
    cases i with
    | zero => exact (List.getElem?_eq_getElem hhere).symm
    | succ i =>
      rw [List.take_succ_cons, List.map_cons, List.sum_cons, ← Nat.add_assoc]
      exact hget i (Nat.lt_of_succ_lt_succ hi)

theorem length_le_sizes (ps : List Text) : ps.length ≤ (ps.map getTypeSize).sum := by
  induction ps with
  | nil => exact Nat.le_refl 0
  | cons p ps ih =>
    have := getTypeSize_pos p
    rw [List.length_cons, List.map_cons, List.sum_cons]
    omega

/-- `GetArgs` on enough names files and returns the variable of each picked one. -/
theorem getArgs_spec (vmap : Vmap) (h : (ps.map getTypeSize).sum ≤ largs.length) :
    List.Forall₂ ((vmap.getArgs ps largs).2.Files) (pickArgs ps 0 largs)
        (vmap.getArgs ps largs).1 ∧ (vmap.getArgs ps largs).2.Extends vmap := by
  have hlen : ¬largs.length < ps.length := Nat.not_lt.mpr ((length_le_sizes ps).trans h)
  have hsum : 0 + (ps.map getTypeSize).sum ≤ largs.length := (Nat.zero_add _).symm ▸ h
  unfold getArgs
  rw [if_neg hlen]
  by_cases hone : ps.length = 1
  · rw [if_pos hone]
    obtain ⟨name, hname⟩ := List.length_eq_one_iff.mp ((pickArgs_eq hsum).1.trans hone)
    rw [hname]
    obtain ⟨hfiled, hext⟩ := getVariable_spec vmap name
    exact ⟨.cons hfiled .nil, hext⟩
  · rw [if_neg hone]
    exact getVariables_spec vmap _

end Vmap

/-- Parameters of descriptors take the registers their names say. -/
theorem Vmap.getArgs_regs {vmap : Vmap} {ps largs : List Text} {regs : List Nat}
    (hps : ∀ p ∈ ps, IsDescriptor p) (hlen : (ps.map registersOf).sum = regs.length)
    (hlead : regs.map regName <+: largs) :
    (vmap.getArgs ps largs).2.Extends vmap ∧ (vmap.getArgs ps largs).1.length = ps.length ∧
      ∀ i < ps.length, ∃ r x, regs[registersBefore ps i]? = some r ∧
        (vmap.getArgs ps largs).2.Files (regName r) x ∧
        (vmap.getArgs ps largs).1[i]? = some x := by
  have hsizes (qs : List Text) (hqs : ∀ q ∈ qs, q ∈ ps) :
      qs.map getTypeSize = qs.map registersOf :=
    List.map_congr_left fun q hq => getTypeSize_eq (hps q (hqs q hq))
  have hsum : (ps.map getTypeSize).sum = regs.length := by
    rw [hsizes ps fun _ h => h, hlen]
  have hroom : (ps.map getTypeSize).sum ≤ largs.length := by
    rw [hsum, ← List.length_map (f := regName)]
    exact hlead.length_le
  obtain ⟨hfiled, hext⟩ := vmap.getArgs_spec hroom
  have hstart : 0 + (ps.map getTypeSize).sum ≤ largs.length := (Nat.zero_add _).symm ▸ hroom
  obtain ⟨hcount, hpick⟩ := Vmap.pickArgs_eq hstart
  refine ⟨hext, hfiled.length_eq.symm.trans hcount, fun i hi => ?_⟩
  have hbefore : registersBefore ps i < regs.length := by
    have hsplit : (ps.take i).map registersOf ++ (ps.drop i).map registersOf =
        ps.map registersOf := by
      rw [← List.map_append, List.take_append_drop]
    have hrest := length_le_sizes (ps.drop i)
    rw [hsizes _ fun _ h => List.mem_of_mem_drop h, List.length_drop] at hrest
    rw [registersBefore, ← hlen, ← hsplit, List.sum_append]
    omega
  have hname : (Vmap.pickArgs ps 0 largs)[i]? = some (regName regs[registersBefore ps i]) := by
    rw [hpick i hi, Nat.zero_add, hsizes _ fun _ h => List.mem_of_mem_take h]
    obtain ⟨rest, rfl⟩ := hlead
    rw [List.getElem?_append_left (by rw [List.length_map]; exact hbefore), List.getElem?_map]
    exact congrArg _ (List.getElem?_eq_getElem hbefore)
  obtain ⟨hfst, hfst'⟩ := List.getElem?_eq_some_iff.mp hname
  have hsnd : i < (vmap.getArgs ps largs).1.length := hfiled.length_eq ▸ hfst
  have hreg := (List.forall₂_iff_get.mp hfiled).2 i hfst hsnd
  rw [List.get_eq_getElem, hfst'] at hreg
  exact ⟨_, _, List.getElem?_eq_getElem hbefore, hreg, List.getElem?_eq_getElem hsnd⟩

section Calls

/-- The arguments of a call: for each parameter, the variable of its first register. -/
structure ArgumentsMapped (skip : Nat) (regs : List Nat) (ps : List Text)
    (call : InvokeInstruction) (vmap : Vmap) : Prop where
  count : call.args.length = ps.length
  argument : ∀ i < ps.length, ∃ r x, regs[skip + registersBefore ps i]? = some r ∧
    vmap.Files (regName r) x ∧ call.argument i = some (.var x)

/-- The receiver of a call is the variable of the first register. -/
def ReceiverMapped (regs : List Nat) (call : InvokeInstruction) (vmap : Vmap) : Prop :=
  ∃ r x, regs[0]? = some r ∧ vmap.Files (regName r) x ∧ call.receiver = some (.var x)

theorem ArgumentsMapped.extend {skip : Nat} {regs : List Nat} {ps : List Text}
    {call : InvokeInstruction} {vmap vmap' : Vmap} (h : ArgumentsMapped skip regs ps call vmap)
    (hext : vmap'.Extends vmap) : ArgumentsMapped skip regs ps call vmap' :=
  ⟨h.count, fun i hi =>
    have ⟨r, x, hr, hx, harg⟩ := h.argument i hi
    ⟨r, x, hr, hext _ _ hx, harg⟩⟩

/-- What `GetArgs` gives on the registers behind the receiver. -/
structure Picked (skip : Nat) (regs : List Nat) (ps : List Text) (args : List Variable)
    (vmap : Vmap) : Prop where
  count : args.length = ps.length
  picked : ∀ i < ps.length, ∃ r x, regs[skip + registersBefore ps i]? = some r ∧
    vmap.Files (regName r) x ∧ args[i]? = some x

variable {skip : Nat} {regs : List Nat} {ps : List Text} {args : List Variable}
  {vmap vmap' : Vmap} {base : Operand}

theorem Picked.extend (h : Picked skip regs ps args vmap) (hext : vmap'.Extends vmap) :
    Picked skip regs ps args vmap' :=
  ⟨h.count, fun i hi =>
    have ⟨r, x, hr, hx, hget⟩ := h.picked i hi
    ⟨r, x, hr, hext _ _ hx, hget⟩⟩

theorem Picked.files (h : Picked skip regs ps args vmap) {x : Variable} (hx : x ∈ args) :
    ∃ r, vmap.Files (regName r) x := by
  obtain ⟨i, hi, hget⟩ := List.mem_iff_getElem.mp hx
  obtain ⟨r, y, -, hy, hgety⟩ := h.picked i (h.count ▸ hi)
  obtain rfl : x = y := Option.some.inj
    ((congrArg some hget.symm).trans ((List.getElem?_eq_getElem hi).symm.trans hgety))
  exact ⟨r, hy⟩

/-- A base that no register's id names, or a variable of the map. -/
def BaseApart (base : Operand) (vmap : Vmap) : Prop :=
  (∃ k x, base = .var x ∧ vmap.Files k x) ∨ ∀ r, base.vid ≠ regName r

theorem baseClass_apart (name desc : Text) : BaseApart (.baseClass name desc) vmap :=
  .inr fun r h => by simp [Operand.vid, regName, ascii] at h

theorem dynamicInvoker_apart (site : CallSiteInfo) : BaseApart (.dynamicInvoker site) vmap :=
  .inr fun r h => by simp [Operand.vid, regName, ascii] at h

/-- The ids of a call lead back to its operands. -/
theorem make_mapped (node : InvokeNode) (cls name rtype : Text) (triple : RefTriple)
    (hpicked : Picked skip regs ps args vmap) (hbase : BaseApart base vmap) :
    (InvokeInstruction.make node cls name base rtype ps args triple).receiver = some base ∧
      ArgumentsMapped skip regs ps
        (InvokeInstruction.make node cls name base rtype ps args triple) vmap := by
  have hmem (e : Text × Operand) :
      e ∈ (InvokeInstruction.make node cls name base rtype ps args triple).varMap ↔
        (∃ x ∈ args, e = (x.v, .var x)) ∨ e = (base.vid, base) := by
    simp only [InvokeInstruction.make, List.mem_append, List.mem_map, List.mem_reverse,
      List.mem_singleton, eq_comm]
  have hclash {x : Variable} (hx : x ∈ args) (hid : x.v = base.vid) : base = .var x := by
    obtain ⟨r, hfiled⟩ := hpicked.files hx
    obtain ⟨k, y, rfl, hy⟩ | hapart := hbase
    · rw [hy.unique hfiled hid.symm]
    · exact absurd (hid.symm.trans hfiled.id) (hapart r)
  constructor
  · refine Association.lookup_of_unique ((hmem _).mpr (.inr rfl)) fun o ho => ?_
    obtain ⟨x, hx, heq⟩ | heq := (hmem _).mp ho
    · obtain ⟨hid, rfl⟩ := Prod.mk.inj heq
      exact (hclash hx hid.symm).symm
    · exact (Prod.mk.inj heq).2
  · refine ⟨(List.length_map _).trans hpicked.count, fun i hi => ?_⟩
    obtain ⟨r, x, hr, hx, hget⟩ := hpicked.picked i hi
    have hin : x ∈ args := List.mem_of_getElem? hget
    refine ⟨r, x, hr, hx, ?_⟩
    have hid : (InvokeInstruction.make node cls name base rtype ps args triple).args[i]? =
        some x.v := by
      simp [InvokeInstruction.make, hget]
    rw [InvokeInstruction.argument, hid, Option.bind_eq_bind, Option.bind_some]
    refine Association.lookup_of_unique ((hmem _).mpr (.inl ⟨x, hin, rfl⟩)) fun o ho => ?_
    obtain ⟨y, hy, heq⟩ | heq := (hmem _).mp ho
    · obtain ⟨hid, rfl⟩ := Prod.mk.inj heq
      obtain ⟨r', hfiled⟩ := hpicked.files hy
      rw [hx.unique hfiled hid]
    · obtain ⟨hid, rfl⟩ := Prod.mk.inj heq
      exact hclash hin hid

theorem getArgs_picked (vmap : Vmap) {largs : List Text} (hps : ∀ p ∈ ps, IsDescriptor p)
    (hlen : regs.length = skip + (ps.map registersOf).sum)
    (hlead : (regs.drop skip).map regName <+: largs) :
    (vmap.getArgs ps largs).2.Extends vmap ∧
      Picked skip regs ps (vmap.getArgs ps largs).1 (vmap.getArgs ps largs).2 := by
  have hrest : (ps.map registersOf).sum = (regs.drop skip).length := by
    rw [List.length_drop]
    omega
  obtain ⟨hext, hcount, hpicked⟩ := Vmap.getArgs_regs hps hrest hlead
  refine ⟨hext, hcount, fun i hi => ?_⟩
  obtain ⟨r, x, hr, hx, hget⟩ := hpicked i hi
  rw [List.getElem?_drop] at hr
  exact ⟨r, x, hr, hx, hget⟩

end Calls

section Handlers

variable {m : MethodRef} {regs : List Nat} {ps : List Text} {r : InvokeRegs} {largs : List Text}
  {c : Text}

/-- A call with its receiver and its arguments. -/
def CallMapped (regs : List Nat) (ps : List Text) (b : Built) : Prop :=
  ReceiverMapped regs b.1.rhs b.2.2 ∧ ArgumentsMapped 1 regs ps b.1.rhs b.2.2

/-- A call on `super`, with its arguments. -/
def SuperMapped (regs : List Nat) (ps : List Text) (b : Built) : Prop :=
  b.1.rhs.receiver = some (.baseClass (ascii "super") []) ∧
    ArgumentsMapped 1 regs ps b.1.rhs b.2.2

theorem names_of_receiver (hlen : regs.length = 1 + (ps.map registersOf).sum)
    (hlead : regs.map regName <+: c :: largs) :
    ∃ reg, regs[0]? = some reg ∧ c = regName reg ∧ (regs.drop 1).map regName <+: largs := by
  cases regs with
  | nil =>
    rw [List.length_nil] at hlen
    omega
  | cons reg regs =>
    obtain ⟨hhead, htail⟩ := List.cons_prefix_cons.mp hlead
    exact ⟨reg, rfl, hhead.symm, htail⟩

section Receiver

variable (ret : RetState) (vmap : Vmap) (hps : ∀ p ∈ m.paramType, IsDescriptor p)
  (hlen : regs.length = 1 + (m.paramType.map registersOf).sum)

include hps hlen

/-- The receiver of a listed call is filed after its arguments. -/
theorem listed_mapped (hlead : regs.map regName <+: r.largs5) (node : InvokeNode) :
    let args := vmap.getArgs m.paramType r.largs4
    let base := args.2.getVariable r.c
    ReceiverMapped regs (m.call node (.var base.1) args.1) base.2 ∧
      ArgumentsMapped 1 regs m.paramType (m.call node (.var base.1) args.1) base.2 := by
  intro args base
  obtain ⟨reg, hreg, hc, htail⟩ := names_of_receiver hlen hlead
  obtain ⟨-, hpicked⟩ := getArgs_picked vmap hps hlen htail
  obtain ⟨hfiled, hext⟩ := args.2.getVariable_spec r.c
  obtain ⟨hreceiver, hargs⟩ := make_mapped node m.clsName m.name m.retType m.triple
    (hpicked.extend hext) (.inl ⟨_, _, rfl, hfiled⟩)
  exact ⟨⟨reg, base.1, hreg, hc ▸ hfiled, hreceiver⟩, hargs⟩

theorem invokeVirtual_mapped (hlead : regs.map regName <+: r.largs5) :
    CallMapped regs m.paramType (m.invokeVirtual r ret vmap) :=
  listed_mapped vmap hps hlen hlead .invoke

theorem invokeDirect_mapped (hlead : regs.map regName <+: r.largs5) :
    CallMapped regs m.paramType (m.invokeDirect r ret vmap) :=
  listed_mapped vmap hps hlen hlead .direct

theorem invokeSuper_mapped (hlead : regs.map regName <+: r.largs5) :
    SuperMapped regs m.paramType (m.invokeSuper r ret vmap) := by
  obtain ⟨reg, hreg, hc, htail⟩ := names_of_receiver hlen hlead
  obtain ⟨-, hpicked⟩ := getArgs_picked vmap hps hlen htail
  exact make_mapped .invoke m.clsName m.name m.retType m.triple hpicked (baseClass_apart _ _)

/-- The receiver of a ranged call is filed before its arguments. -/
theorem ranged_mapped {reg : Nat} {tail : List Nat} (hregs : regs = reg :: tail) :
    let base := vmap.getVariable (regName reg)
    let args := base.2.getArgs m.paramType (tail.map regName)
    ReceiverMapped regs (m.call .range (.var base.1) args.1) args.2 ∧
      ArgumentsMapped 1 regs m.paramType (m.call .range (.var base.1) args.1) args.2 := by
  intro base args
  subst hregs
  obtain ⟨hfiled, hext⟩ := vmap.getVariable_spec (regName reg)
  obtain ⟨hext', hpicked⟩ := getArgs_picked base.2 hps hlen List.prefix_rfl
  obtain ⟨hreceiver, hargs⟩ := make_mapped .range m.clsName m.name m.retType m.triple hpicked
    (.inl ⟨_, _, rfl, hext' _ _ hfiled⟩)
  exact ⟨⟨reg, base.1, rfl, hext' _ _ hfiled, hreceiver⟩, hargs⟩

omit hps in
theorem exists_range : ∃ reg tail, regs = reg :: tail := by
  cases regs with
  | nil =>
    rw [List.length_nil] at hlen
    omega
  | cons reg tail => exact ⟨reg, tail, rfl⟩

theorem invokeVirtualRange_mapped :
    ∃ b, m.invokeVirtualRange (regs.map regName) ret vmap = .ok b ∧
      CallMapped regs m.paramType b := by
  obtain ⟨reg, tail, hregs⟩ := exists_range hlen
  have hmapped := ranged_mapped vmap hps hlen hregs
  rw [hregs]
  exact ⟨_, rfl, hregs ▸ hmapped⟩

theorem invokeDirectRange_mapped :
    ∃ b, m.invokeDirectRange (regs.map regName) ret vmap = .ok b ∧
      CallMapped regs m.paramType b := by
  obtain ⟨reg, tail, hregs⟩ := exists_range hlen
  obtain ⟨⟨r, x, hr, hx, hreceiver⟩, hargs⟩ := ranged_mapped vmap hps hlen hregs
  rw [hregs] at hr hargs ⊢
  refine ⟨_, rfl, ⟨r, x, hr, ?_, hreceiver⟩, hargs.extend ?_⟩
  · exact (Vmap.getVariable_spec _ _).2 _ _ hx
  · exact (Vmap.getVariable_spec _ _).2

theorem invokeSuperRange_mapped :
    ∃ b, m.invokeSuperRange (regs.map regName) ret vmap = .ok b ∧
      SuperMapped regs m.paramType b := by
  obtain ⟨reg, tail, rfl⟩ := exists_range hlen
  obtain ⟨-, hpicked⟩ := getArgs_picked vmap hps hlen List.prefix_rfl
  exact ⟨_, rfl, make_mapped .range m.clsName m.name m.retType m.triple hpicked
    (baseClass_apart _ _)⟩

end Receiver

theorem invokeStatic_mapped (ret : RetState) (vmap : Vmap)
    (hps : ∀ p ∈ m.paramType, IsDescriptor p)
    (hlen : regs.length = 0 + (m.paramType.map registersOf).sum)
    (hlead : regs.map regName <+: largs) :
    ArgumentsMapped 0 regs m.paramType (m.invokeStatic largs ret vmap).1.rhs
      (m.invokeStatic largs ret vmap).2.2 := by
  obtain ⟨-, hpicked⟩ := getArgs_picked vmap hps hlen hlead
  exact (make_mapped .static m.clsName m.name m.retType m.triple hpicked
    (baseClass_apart _ _)).2

theorem buildInvokeCustom_mapped {info : CallSiteInfo} (ret : RetState) (vmap : Vmap)
    (hparams : parseParamsType info.proto = ps) (hps : ∀ p ∈ ps, IsDescriptor p)
    (hlen : regs.length = 0 + (ps.map registersOf).sum)
    (hlead : regs.map regName <+: largs) :
    ArgumentsMapped 0 regs ps (buildInvokeCustom info largs ret vmap).1.rhs
      (buildInvokeCustom info largs ret vmap).2.2 := by
  subst hparams
  obtain ⟨-, hpicked⟩ := getArgs_picked vmap hps hlen hlead
  obtain ⟨-, hargs⟩ := make_mapped .invoke (getType (ascii "Ljava/lang/invoke/MethodHandle;"))
    (ascii "invoke") (returnType info.proto)
    ⟨ascii "Ljava/lang/invoke/MethodHandle;", ascii "invoke", info.proto⟩ hpicked
    (dynamicInvoker_apart info)
  exact ⟨hargs.count, hargs.argument⟩

end Handlers

end Dexllm
