import Dexllm.Dad.ArgumentPicks

/-!
The operands of every invoke. The four encodings place the registers differently; the window
a handler is given starts with the registers of the encoding, in their order.
-/

namespace Dexllm

open Guarded Bytes

/-- The registers an invoke lists, as its format encodes them: four bits each, or a range. -/
def operandRegs (mem : Memory) (p : Nat) : Run (List Nat) := do
  let inst ← unitAt mem p 0
  let list ← unitAt mem p 2
  match getFormatFromOpcode (opcodeFromBytecode inst) with
  | .k3rc | .k4rcc => pure ((List.range (inst >>> 8)).map (list + ·))
  | _ =>
    pure ([list &&& 0xf, (list >>> 4) &&& 0xf, (list >>> 8) &&& 0xf, (list >>> 12) &&& 0xf,
      (inst >>> 8) &&& 0xf].take (inst >>> 12))

/-- The signature of a call: the proto of its method, of its call site, or its own. -/
def signatureAt (src : ConstSource) (mem : Memory) (p : Nat) : Run (Option Text) := do
  let inst ← unitAt mem p 0
  let index ← unitAt mem p 1
  match invokeKind (opcodeFromBytecode inst) with
  | none => pure none
  | some (.polymorphic, _) => do
    let proto ← unitAt mem p 3
    pure (some (src.getProto proto))
  | some (.custom, _) =>
    let site := src.getCallSite index
    pure (if site.ok then some site.proto else none)
  | some _ => pure (some (src.getMethodRefTriple index).sig)

/-- The proto text of some parameters and a return type. -/
def protoText (ps : List Text) (r : Text) : Text := ascii "(" ++ ps.flatten ++ ascii ")" ++ r

section Windows

variable {mem : Memory} {p inst : Nat} {d : Instruction} {regs : List Nat}

/-- The window of 35c starts with the listed registers, as many as the count says. -/
theorem largs5_of_list (hinst : unitAt mem p 0 = .ok inst)
    (hformat : getFormatFromOpcode (opcodeFromBytecode inst) = .k35c)
    (hdec : decodeInstruction mem p = .ok d) (hregs : operandRegs mem p = .ok regs) :
    unitAt mem p 1 = .ok d.vB ∧ regs.length = d.vA ∧
      regs.map regName <+: (InvokeRegs.buildInvokeRegs d).largs5 := by
  rw [decodeInstruction, hinst, bind_ok] at hdec
  simp only [hformat] at hdec
  obtain ⟨index, hindex, hdec⟩ := bind_eq_ok.mp hdec
  obtain ⟨list, hlist, hdec⟩ := bind_eq_ok.mp hdec
  rw [operandRegs, hinst, bind_ok, hlist, bind_ok] at hregs
  simp only [hformat] at hregs
  obtain rfl := Except.ok.inj hregs
  change _ ∧ (List.take (instB inst) _).length = _ ∧
    (List.take (instB inst) _).map regName <+: _
  rw [hindex]
  unfold decodeRegList at hdec
  generalize instB inst = count at hdec ⊢
  rcases count with _ | _ | _ | _ | _ | _ | count
  case succ.succ.succ.succ.succ.succ => cases hdec
  all_goals
    obtain rfl := Except.ok.inj hdec
    exact ⟨rfl, rfl, _, rfl⟩

/-- The window of 45cc keeps the first register apart and has the others in `arg`. -/
theorem largs5_of_polymorphic (hinst : unitAt mem p 0 = .ok inst)
    (hformat : getFormatFromOpcode (opcodeFromBytecode inst) = .k45cc)
    (hdec : decodeInstruction mem p = .ok d) (hregs : operandRegs mem p = .ok regs) :
    unitAt mem p 1 = .ok d.vB ∧ unitAt mem p 3 = .ok (d.arg.getD 4 0) ∧
      regs.map regName <+: (InvokeRegs.buildPolymorphicRegs d).largs5 := by
  rw [decodeInstruction, hinst, bind_ok] at hdec
  simp only [hformat] at hdec
  obtain ⟨index, hindex, hdec⟩ := bind_eq_ok.mp hdec
  obtain ⟨list, hlist, hdec⟩ := bind_eq_ok.mp hdec
  obtain ⟨proto, hproto, hdec⟩ := bind_eq_ok.mp hdec
  rw [operandRegs, hinst, bind_ok, hlist, bind_ok] at hregs
  simp only [hformat] at hregs
  obtain rfl := Except.ok.inj hregs
  obtain rfl := Except.ok.inj hdec
  have hlast : (list >>> 12) &&& 0xf = list >>> 12 := by
    have hlt : list < 65536 := (read_eq_ok.mp hlist).2 ▸ u2At_lt _ _
    rw [show 0xf = 2 ^ 4 - 1 from rfl, Nat.and_two_pow_sub_one_eq_mod, Nat.shiftRight_eq_div_pow]
    exact Nat.mod_eq_of_lt (by omega)
  refine ⟨hindex, hproto, ?_⟩
  rw [hlast]
  change (List.take (instB inst) _).map regName <+: _
  unfold InvokeRegs.buildPolymorphicRegs InvokeRegs.largs5
  generalize instB inst = count
  rcases count with _ | _ | _ | _ | _ | count
  case succ.succ.succ.succ.succ => simp [InvokeRegs.slot, instA]
  all_goals exact ⟨_, rfl⟩

/-- The names of a range are those of its registers. -/
theorem buildRangeRegs_of_range (hinst : unitAt mem p 0 = .ok inst)
    (hformat : getFormatFromOpcode (opcodeFromBytecode inst) = .k3rc)
    (hdec : decodeInstruction mem p = .ok d) (hregs : operandRegs mem p = .ok regs) :
    unitAt mem p 1 = .ok d.vB ∧ regs.map regName = buildRangeRegs d.vA d.vC := by
  rw [decodeInstruction, hinst, bind_ok] at hdec
  simp only [hformat] at hdec
  obtain ⟨index, hindex, hdec⟩ := bind_eq_ok.mp hdec
  obtain ⟨start, hstart, hdec⟩ := bind_eq_ok.mp hdec
  rw [operandRegs, hinst, bind_ok, hstart, bind_ok] at hregs
  simp only [hformat] at hregs
  obtain rfl := Except.ok.inj hdec
  obtain rfl := Except.ok.inj hregs
  exact ⟨hindex, List.map_map⟩

theorem buildRangeRegs_of_polymorphic (hinst : unitAt mem p 0 = .ok inst)
    (hformat : getFormatFromOpcode (opcodeFromBytecode inst) = .k4rcc)
    (hdec : decodeInstruction mem p = .ok d) (hregs : operandRegs mem p = .ok regs) :
    unitAt mem p 1 = .ok d.vB ∧ unitAt mem p 3 = .ok (d.arg.getD 4 0) ∧
      regs.map regName = buildRangeRegs d.vA d.vC := by
  rw [decodeInstruction, hinst, bind_ok] at hdec
  simp only [hformat] at hdec
  obtain ⟨index, hindex, hdec⟩ := bind_eq_ok.mp hdec
  obtain ⟨start, hstart, hdec⟩ := bind_eq_ok.mp hdec
  obtain ⟨proto, hproto, hdec⟩ := bind_eq_ok.mp hdec
  rw [operandRegs, hinst, bind_ok, hstart, bind_ok] at hregs
  simp only [hformat] at hregs
  obtain rfl := Except.ok.inj hdec
  obtain rfl := Except.ok.inj hregs
  exact ⟨hindex, hproto, List.map_map⟩

end Windows

/-- Whether the first register of a call is its receiver. -/
def InvokeKind.hasReceiver : InvokeKind → Bool
  | .static | .custom => false
  | _ => true

def InvokeKind.receiverRegs (kind : InvokeKind) : Nat := if kind.hasReceiver then 1 else 0

/-- An invoke whose registers are those its signature needs. -/
structure ExactInvoke (src : ConstSource) (mem : Memory) (p inst : Nat) (d : Instruction)
    (kind : InvokeKind) (regs : List Nat) (ps : List Text) : Prop where
  unit : unitAt mem p 0 = .ok inst
  invoked : ∃ ranged, invokeKind (opcodeFromBytecode inst) = some (kind, ranged)
  decoded : decodeInstruction mem p = .ok d
  listed : operandRegs mem p = .ok regs
  signature : ∃ r, signatureAt src mem p = .ok (some (protoText ps r))
  params : ∀ p ∈ ps, IsDescriptor p
  exact : regs.length = kind.receiverRegs + (ps.map registersOf).sum

/-- The receiver and the arguments of a call, as its kind says. -/
structure OperandsMapped (kind : InvokeKind) (regs : List Nat) (ps : List Text) (b : Built) :
    Prop where
  receiver : kind.hasReceiver = true → ReceiverMapped regs b.1.rhs b.2.2
  arguments : ArgumentsMapped kind.receiverRegs regs ps b.1.rhs b.2.2

/-- The formats and the constants of the invokes. -/
theorem invokeKind_table {op : Nat} {kind : InvokeKind} {ranged : Bool}
    (h : invokeKind op = some (kind, ranged)) :
    getFormatFromOpcode op =
        (match kind, ranged with
          | .polymorphic, false => .k45cc
          | .polymorphic, true => .k4rcc
          | _, false => .k35c
          | _, true => .k3rc) ∧
      getIndexTypeFromOpcode op =
        (match kind with
          | .polymorphic => .kIndexMethodAndProtoRef
          | .custom => .kIndexCallSiteRef
          | _ => .kIndexMethodRef) := by
  unfold invokeKind at h
  split at h
  case h_15 => cases h
  all_goals
    obtain ⟨rfl, rfl⟩ := Prod.mk.inj (Option.some.inj h)
    exact ⟨rfl, rfl⟩

/-- The names a handler is given, from the registers of the encoding. -/
structure Windows (kind : InvokeKind) (ranged : Bool) (d : Instruction) (regs : List Nat) :
    Prop where
  range : ranged = true → regs.map regName = buildRangeRegs d.vA d.vC
  list : ranged = false → kind ≠ .polymorphic →
    regs.map regName <+: (InvokeRegs.buildInvokeRegs d).largs5
  count : ranged = false → kind ≠ .polymorphic → regs.length = d.vA
  polymorphic : ranged = false → kind = .polymorphic →
    regs.map regName <+: (InvokeRegs.buildPolymorphicRegs d).largs5

section Dispatch

variable {src : ConstSource} {mem : Memory} {p inst : Nat} {d : Instruction} {kind : InvokeKind}
  {ranged : Bool} {regs : List Nat} {ps : List Text}

theorem windows_of_decode (hinst : unitAt mem p 0 = .ok inst)
    (hkind : invokeKind (opcodeFromBytecode inst) = some (kind, ranged))
    (hdec : decodeInstruction mem p = .ok d) (hregs : operandRegs mem p = .ok regs) :
    Windows kind ranged d regs ∧ unitAt mem p 1 = .ok d.vB ∧
      (kind = .polymorphic → unitAt mem p 3 = .ok (d.arg.getD 4 0)) := by
  have hformat := (invokeKind_table hkind).1
  by_cases hpoly : kind = .polymorphic
  · subst hpoly
    cases ranged with
    | false =>
      obtain ⟨hindex, hproto, hnames⟩ := largs5_of_polymorphic hinst hformat hdec hregs
      exact ⟨⟨nofun, fun _ h => absurd rfl h, fun _ h => absurd rfl h, fun _ _ => hnames⟩,
        hindex, fun _ => hproto⟩
    | true =>
      obtain ⟨hindex, hproto, hnames⟩ := buildRangeRegs_of_polymorphic hinst hformat hdec hregs
      exact ⟨⟨fun _ => hnames, nofun, nofun, nofun⟩, hindex, fun _ => hproto⟩
  · cases ranged with
    | false =>
      have hlist : getFormatFromOpcode (opcodeFromBytecode inst) = .k35c := by
        cases kind <;> first | exact hformat | exact absurd rfl hpoly
      obtain ⟨hindex, hcount, hnames⟩ := largs5_of_list hinst hlist hdec hregs
      exact ⟨⟨nofun, fun _ _ => hnames, fun _ _ => hcount, fun _ h => absurd h hpoly⟩, hindex,
        fun h => absurd h hpoly⟩
    | true =>
      have hrange : getFormatFromOpcode (opcodeFromBytecode inst) = .k3rc := by
        cases kind <;> first | exact hformat | exact absurd rfl hpoly
      obtain ⟨hindex, hnames⟩ := buildRangeRegs_of_range hinst hrange hdec hregs
      exact ⟨⟨fun _ => hnames, nofun, nofun, nofun⟩, hindex, fun h => absurd h hpoly⟩

/-- What a kind says of its call. -/
def KindMapped (kind : InvokeKind) (regs : List Nat) (ps : List Text) (b : Built) : Prop :=
  (kind ≠ .super → OperandsMapped kind regs ps b) ∧ (kind = .super → SuperMapped regs ps b)

theorem CallMapped.kindMapped {b : Built} (h : CallMapped regs ps b) (hsuper : kind ≠ .super)
    (hreceiver : kind.receiverRegs = 1) : KindMapped kind regs ps b :=
  ⟨fun _ => ⟨fun _ => h.1, hreceiver ▸ h.2⟩, fun heq => absurd heq hsuper⟩

theorem SuperMapped.kindMapped {b : Built} (h : SuperMapped regs ps b) :
    KindMapped .super regs ps b :=
  ⟨fun hne => absurd rfl hne, fun _ => h⟩

theorem dispatchMethod_mapped {m : MethodRef} (hwindows : Windows kind ranged d regs)
    (hcustom : kind ≠ .custom) (hps : ∀ p ∈ m.paramType, IsDescriptor p)
    (hlen : regs.length = kind.receiverRegs + (m.paramType.map registersOf).sum)
    (ret : RetState) (vmap : Vmap) :
    ∃ b, dispatchMethod m kind ranged d ret vmap = .ok (some b) ∧
      KindMapped kind regs m.paramType b := by
  cases ranged with
  | false =>
    cases kind with
    | custom => exact absurd rfl hcustom
    | virtual | interface =>
      exact ⟨_, rfl, (invokeVirtual_mapped ret vmap hps hlen
        (hwindows.list rfl nofun)).kindMapped nofun rfl⟩
    | polymorphic =>
      exact ⟨_, rfl, (invokeVirtual_mapped ret vmap hps hlen
        (hwindows.polymorphic rfl rfl)).kindMapped nofun rfl⟩
    | direct =>
      exact ⟨_, rfl, (invokeDirect_mapped ret vmap hps hlen
        (hwindows.list rfl nofun)).kindMapped nofun rfl⟩
    | super =>
      exact ⟨_, rfl,
        (invokeSuper_mapped ret vmap hps hlen (hwindows.list rfl nofun)).kindMapped⟩
    | static =>
      exact ⟨_, rfl, fun _ => ⟨nofun, invokeStatic_mapped ret vmap hps hlen
        (hwindows.list rfl nofun)⟩, nofun⟩
  | true =>
    have hnames := hwindows.range rfl
    cases kind with
    | custom => exact absurd rfl hcustom
    | virtual | interface | polymorphic =>
      obtain ⟨b, hb, hmapped⟩ := invokeVirtualRange_mapped ret vmap hps hlen
      refine ⟨b, ?_, hmapped.kindMapped nofun rfl⟩
      rw [hnames] at hb
      exact congrArg (Except.map some) hb
    | direct =>
      obtain ⟨b, hb, hmapped⟩ := invokeDirectRange_mapped ret vmap hps hlen
      refine ⟨b, ?_, hmapped.kindMapped nofun rfl⟩
      rw [hnames] at hb
      exact congrArg (Except.map some) hb
    | super =>
      obtain ⟨b, hb, hmapped⟩ := invokeSuperRange_mapped ret vmap hps hlen
      refine ⟨b, ?_, hmapped.kindMapped⟩
      rw [hnames] at hb
      exact congrArg (Except.map some) hb
    | static =>
      exact ⟨_, rfl, fun _ => ⟨nofun, invokeStatic_mapped ret vmap hps hlen
        (hnames ▸ List.prefix_rfl)⟩, nofun⟩

theorem dispatchCustom_mapped {info : CallSiteInfo} (hwindows : Windows .custom ranged d regs)
    (hok : info.ok = true) (hparams : parseParamsType info.proto = ps)
    (hps : ∀ p ∈ ps, IsDescriptor p) (hlen : regs.length = 0 + (ps.map registersOf).sum)
    (ret : RetState) (vmap : Vmap) :
    ∃ b, dispatchCustom info ranged d ret vmap = some b ∧ KindMapped .custom regs ps b := by
  unfold dispatchCustom
  rw [if_pos hok]
  refine ⟨_, rfl, fun _ => ⟨nofun, ?_⟩, nofun⟩
  refine buildInvokeCustom_mapped ret vmap hparams hps hlen ?_
  cases ranged with
  | true => exact hwindows.range rfl ▸ List.prefix_rfl
  | false =>
    have hnames := hwindows.list rfl nofun
    have hcount := hwindows.count rfl nofun
    rw [if_neg nofun]
    refine List.prefix_take_iff.mpr ⟨hnames, ?_⟩
    rw [List.length_map]
    refine le_min hcount.le ?_
    rw [← List.length_map (f := regName)]
    exact hnames.length_le

/-- The call an invoke instruction builds has the variable of the first register as its
receiver where there is one, but for an invoke-super, whose receiver is `super`; and it has
one argument for each parameter, the variable of the parameter's first register. -/
theorem invoke_operands_mapped (h : ExactInvoke src mem p inst d kind regs ps) (ret : RetState)
    (vmap : Vmap) :
    ∃ b, dispatchInvoke (opcodeFromBytecode inst)
        (resolveConstRef src (opcodeFromBytecode inst) d) d ret vmap = .ok (some b) ∧
      KindMapped kind regs ps b := by
  obtain ⟨ranged, hkind⟩ := h.invoked
  obtain ⟨hwindows, hindex, hproto⟩ := windows_of_decode h.unit hkind h.decoded h.listed
  obtain ⟨r, hsig⟩ := h.signature
  have hindexType := (invokeKind_table hkind).2
  rw [signatureAt, h.unit, bind_ok, hindex, bind_ok] at hsig
  unfold dispatchInvoke resolveConstRef
  rw [hkind]
  have hmethod (mc : MethodConst) (hcustom : kind ≠ .custom)
      (hmc : (if mc.callSiteProto = [] then mc.triple.sig else mc.callSiteProto) =
        protoText ps r) :
      ∃ b, dispatchMethod (buildMethodRef mc) kind ranged d ret vmap = .ok (some b) ∧
        KindMapped kind regs ps b := by
    have hparams : (buildMethodRef mc).paramType = ps := by
      rw [buildMethodRef, hmc]
      exact parseParamsType_flatten h.params r
    have hmapped := dispatchMethod_mapped hwindows hcustom (m := buildMethodRef mc)
    rw [hparams] at hmapped
    exact hmapped h.params h.exact ret vmap
  cases kind with
  | custom =>
    simp only [hkind] at hsig
    by_cases hok : (src.getCallSite d.vB).ok = true
    · rw [if_pos hok] at hsig
      have hproto := Option.some.inj (Except.ok.inj hsig)
      have hparams : parseParamsType (src.getCallSite d.vB).proto = ps := by
        rw [hproto]
        exact parseParamsType_flatten h.params r
      obtain ⟨b, hb, hmapped⟩ :=
        dispatchCustom_mapped hwindows hok hparams h.params h.exact ret vmap
      simp only [hindexType]
      exact ⟨b, congrArg Except.ok hb, hmapped⟩
    · rw [if_neg hok] at hsig
      cases hsig
  | polymorphic =>
    simp only [hkind] at hsig
    rw [hproto rfl, bind_ok] at hsig
    have hsite := Option.some.inj (Except.ok.inj hsig)
    simp only [hindexType]
    refine hmethod _ (by decide) ?_
    rw [if_neg (by rw [hsite]; simp [protoText, ascii]), hsite]
  | virtual | super | direct | static | interface =>
    simp only [hkind] at hsig
    simp only [hindexType]
    refine hmethod _ (by decide) ?_
    rw [if_pos rfl]
    exact Option.some.inj (Except.ok.inj hsig)

end Dispatch

/-- A source whose methods all have one proto. -/
def protoSource (proto : Text) : ConstSource :=
  ⟨fun _ => { sig := proto }, fun _ => [], fun _ => {}⟩

/-- `invoke-virtual {v3, v1, v2, v0}` of a method `(JI)V`. -/
def wideCall : Memory := [0x6E, 0x40, 0, 0, 0x13, 0x02]

theorem wideCall_exact : ExactInvoke (protoSource (ascii "(JI)V")) wideCall 0 0x406E
    { vA := 4, vB := 0, vC := 3, arg := [3, 1, 2, 0, 0] } .virtual [3, 1, 2, 0]
    [ascii "J", ascii "I"] where
  unit := rfl
  invoked := ⟨false, rfl⟩
  decoded := rfl
  listed := rfl
  signature := ⟨ascii "V", rfl⟩
  params := by
    intro p hp
    obtain rfl | hp := List.mem_cons.mp hp
    · exact ⟨0, _, rfl, .inl ⟨0x4a, rfl, by decide⟩⟩
    · obtain rfl := List.mem_singleton.mp hp
      exact ⟨0, _, rfl, .inl ⟨0x49, rfl, by decide⟩⟩
  exact := rfl

theorem invoke_operands_mapped_wideCall :
    ∃ b, dispatchInvoke (opcodeFromBytecode 0x406E)
        (resolveConstRef (protoSource (ascii "(JI)V")) (opcodeFromBytecode 0x406E)
          { vA := 4, vB := 0, vC := 3, arg := [3, 1, 2, 0, 0] })
        { vA := 4, vB := 0, vC := 3, arg := [3, 1, 2, 0, 0] } {} ⟨[], nofun⟩ = .ok (some b) ∧
      KindMapped .virtual [3, 1, 2, 0] [ascii "J", ascii "I"] b :=
  invoke_operands_mapped wideCall_exact {} ⟨[], nofun⟩

/-- `invoke-super {v0}` of a method `()V`. -/
def superCall : Memory := [0x6F, 0x10, 0, 0, 0, 0]

theorem superCall_exact : ExactInvoke (protoSource (ascii "()V")) superCall 0 0x106F
    { vA := 1, vB := 0, vC := 0, arg := [0, 0, 0, 0, 0] } .super [0] [] where
  unit := rfl
  invoked := ⟨false, rfl⟩
  decoded := rfl
  listed := rfl
  signature := ⟨ascii "V", rfl⟩
  params := nofun
  exact := rfl

/-- The call of an invoke-super is on `super`, not on the variable of its first register. -/
theorem superCall_receiver :
    ¬∀ (src : ConstSource) (mem : Memory) (p inst : Nat) (d : Instruction) (kind : InvokeKind)
      (regs : List Nat) (ps : List Text), ExactInvoke src mem p inst d kind regs ps →
      ∀ (ret : RetState) (vmap : Vmap), ∃ b, dispatchInvoke (opcodeFromBytecode inst)
          (resolveConstRef src (opcodeFromBytecode inst) d) d ret vmap = .ok (some b) ∧
        OperandsMapped kind regs ps b := by
  intro h
  obtain ⟨b, hb, hmapped⟩ := h _ _ _ _ _ _ _ _ superCall_exact {} ⟨[], nofun⟩
  obtain ⟨r, x, -, -, hreceiver⟩ := hmapped.receiver rfl
  obtain rfl := Option.some.inj (Except.ok.inj hb)
  have hsuper : some (Operand.baseClass (ascii "super") []) = some (.var x) := hreceiver
  cases hsuper

end Dexllm
