import Mathlib.Data.List.ModifyLast
import Dexllm.Lib.Association
import Dexllm.Permissions.EntryTypes
import Dexllm.Permissions.Callers

/-!
The two permission joins compared. They find the same rows for every session, and list
the descriptors and the callers of a row in the same order exactly when MUTF-8 keeps
their order.
-/

namespace Dexllm.Permissions

open SortedSet Mutf8

variable {tables : CharTables}

/-! Names in the two representations. -/

theorem utf8_injective : Function.Injective Utf8.encode := fun _ _ => Utf8.encode_injective

theorem Plain.utf8 {t : Text} (h : Plain t) : Utf8.encode t = mutf8 t := (mutf8_plain h).symm

/-- `/` and `$` become dots. -/
def dotted (c : Char) : Char := if c = '/' ∨ c = '$' then '.' else c

theorem dotted_dotted (c : Char) : dotted (dotted c) = dotted c := by
  unfold dotted
  split <;> simp_all

theorem map_dotted (t : Text) :
    (mutf8 t).map (fun c => if c = 0x2f ∨ c = 0x24 then 0x2e else c) = mutf8 (t.map dotted) := by
  refine map_mutf8 (fun c => ?_) t
  unfold dotted
  by_cases hc : c = '/' ∨ c = '$'
  · obtain rfl | rfl := hc <;> rfl
  · rw [if_neg hc]
    conv_rhs => rw [← List.map_id (mutf8Char c)]
    refine List.map_congr_left fun b hb => if_neg ?_
    have hslash : b = 0x2f ↔ c = '/' :=
      ascii_byte_iff (d := '/') hb (by decide) (by decide)
    have hdollar : b = 0x24 ↔ c = '$' :=
      ascii_byte_iff (d := '$') hb (by decide) (by decide)
    rwa [hslash, hdollar]

theorem simpleName_eq (t : Text) : simpleName t = t.rtakeWhile (· ∉ ['/', '.', '$']) := by
  unfold simpleName afterLast
  induction t using List.reverseRecOn with
  | nil => rfl
  | append_singleton t c ih =>
    rw [List.map_append, List.map_singleton, List.rtakeWhile_concat, List.rtakeWhile_concat, ih]
    by_cases hc : c ∈ ['/', '.', '$']
    · have hdot : (if c = '/' ∨ c = '$' then '.' else c) = '.' := by
        simp only [List.mem_cons, List.not_mem_nil, or_false] at hc
        obtain rfl | rfl | rfl := hc <;> rfl
      simp [hc, hdot]
    · have hself : (if c = '/' ∨ c = '$' then '.' else c) = c := by
        simp only [List.mem_cons, List.not_mem_nil, or_false, not_or] at hc
        rw [if_neg (by simp [hc])]
      have hdot : c ≠ '.' := fun h => hc (by simp [h])
      rw [hself]
      simp [hc, hdot]

theorem simpleName_mutf8 (t : Text) : Cpp.simpleName (mutf8 t) = mutf8 (simpleName t) := by
  rw [simpleName_eq]
  refine rtakeWhile_mutf8 (fun c b hb => ?_) t
  have hslash : b = 0x2f ↔ c = '/' :=
      ascii_byte_iff (d := '/') hb (by decide) (by decide)
  have hdot : b = 0x2e ↔ c = '.' :=
      ascii_byte_iff (d := '.') hb (by decide) (by decide)
  have hdollar : b = 0x24 ↔ c = '$' :=
      ascii_byte_iff (d := '$') hb (by decide) (by decide)
  simp [hslash, hdot, hdollar]

theorem isPrefixOf_mutf8 {p : Text} (h : Plain p) (t : Text) :
    (mutf8 p).isPrefixOf (mutf8 t) = p.isPrefixOf t := by
  induction p generalizing t with
  | nil => rfl
  | cons c p ih =>
    have hc := h c List.mem_cons_self
    have hp : Plain p := fun d hd => h d (List.mem_cons_of_mem c hd)
    rw [mutf8_cons, mutf8Char_plain hc.1 hc.2, List.singleton_append]
    cases t with
    | nil => rfl
    | cons d t =>
      obtain ⟨b, bs, hbytes⟩ : ∃ b bs, mutf8Char d = b :: bs :=
        List.exists_cons_of_ne_nil fun hnil => mutf8Char_ne_nil d (by rw [hnil]; rfl)
      have hb : b = UInt8.ofNat c.toNat ↔ d = c :=
        ascii_byte_iff (by rw [hbytes]; exact List.mem_cons_self) hc.1 hc.2
      rw [mutf8_cons, hbytes, List.cons_append, List.isPrefixOf, List.isPrefixOf]
      obtain rfl | hne := eq_or_ne d c
      · rw [mutf8Char_plain hc.1 hc.2, List.cons.injEq] at hbytes
        obtain ⟨rfl, rfl⟩ := hbytes
        rw [List.nil_append, ih hp, beq_self_eq_true, beq_self_eq_true]
      · have hbc : ¬UInt8.ofNat c.toNat = b := fun heq => hne (hb.mp heq.symm)
        rw [beq_false_of_ne hbc, beq_false_of_ne hne.symm, Bool.false_and, Bool.false_and]

def plainText (t : Text) : Bool := t.all fun c => 0 < c.toNat && c.toNat < 0x80

theorem plain_of_plainText {t : Text} (h : plainText t = true) : Plain t := by
  intro c hc
  simpa using List.all_eq_true.mp h c hc

theorem ascii_eq_mutf8 {p : String} (h : Plain p.toList) : ascii p = mutf8 p.toList := by
  rw [← h.utf8, Utf8.encode_ascii fun c hc => (h c hc).2]
  rfl

theorem isFrameworkCaller_mutf8 (t : Text) :
    Cpp.isFrameworkCaller (mutf8 t) = isFrameworkCaller t := by
  have hplain : frameworkCallerPrefixes.all (fun p => plainText p.toList) = true := by decide
  unfold Cpp.isFrameworkCaller isFrameworkCaller
  rw [Bool.eq_iff_iff, List.any_eq_true, List.any_eq_true]
  refine exists_congr fun p => and_congr_right fun hp => ?_
  have hp' : Plain p.toList := plain_of_plainText (List.all_eq_true.mp hplain p hp)
  rw [ascii_eq_mutf8 hp', isPrefixOf_mutf8 hp']

/-! The proto. -/

/-- The simple name of a parameter type. -/
def TypeDescriptor.simple (p : TypeDescriptor) : Text :=
  (match p.base with
    | .prim code => dalvikPrim code
    | .cls path => simpleName path) ++ brackets p.dims

namespace Cpp

theorem paramTypesFrom_prim {c : UInt8} (hopen : c ≠ 0x5b) (hcls : c ≠ 0x4c)
    (rounds dims : Nat) (rest : List UInt8) :
    paramTypesFrom (rounds + 1) (List.replicate dims 0x5b ++ c :: rest) =
      (primName c ++ arraySuffix dims) :: paramTypesFrom rounds rest := by
  obtain ⟨hlen, hdrop⟩ := replicate_takeWhile dims (o := (0x5b : UInt8)) (t := c :: rest)
    (by simpa using hopen)
  rw [paramTypesFrom, hlen, hdrop]
  exact if_neg hcls

theorem paramTypesFrom_cls {path : List UInt8} (hpath : 0x3b ∉ path) (rounds dims : Nat)
    (rest : List UInt8) :
    paramTypesFrom (rounds + 1) (List.replicate dims 0x5b ++ 0x4c :: (path ++ 0x3b :: rest)) =
      (simpleName path ++ arraySuffix dims) :: paramTypesFrom rounds rest := by
  obtain ⟨hlen, hdrop⟩ := replicate_takeWhile dims (o := (0x5b : UInt8))
    (t := 0x4c :: (path ++ 0x3b :: rest)) (by simp)
  have hname : ∀ d ∈ path, decide (d ≠ 0x3b) = true := fun d hd => by
    simpa using ne_of_mem_of_not_mem hd hpath
  rw [paramTypesFrom, hlen, hdrop]
  change (if (0x4c : UInt8) = 0x4c then
      if 0x3b ∈ path ++ 0x3b :: rest then
        (simpleName ((path ++ 0x3b :: rest).takeWhile (· ≠ 0x3b)) ++ arraySuffix dims) ::
          paramTypesFrom rounds ((path ++ 0x3b :: rest).dropWhile (· ≠ 0x3b)).tail
      else []
    else _) = _
  rw [if_pos rfl, if_pos (by simp), List.takeWhile_append_of_pos hname,
    List.dropWhile_append_of_pos hname]
  simp

end Cpp

theorem mutf8_replicate (dims : Nat) :
    mutf8 (List.replicate dims '[') = List.replicate dims 0x5b := by
  induction dims with
  | zero => rfl
  | succ dims ih =>
    rw [List.replicate_succ, mutf8_cons, ih, List.replicate_succ]
    rfl

theorem arraySuffix_eq (dims : Nat) : Cpp.arraySuffix dims = mutf8 (brackets dims) := by
  induction dims with
  | zero => rfl
  | succ dims ih =>
    have hpair : ascii "[]" = mutf8 ['[', ']'] := rfl
    rw [Cpp.arraySuffix, List.replicate_succ, List.flatten_cons, ← Cpp.arraySuffix, ih, hpair,
      ← mutf8_append]
    rfl

/-- The primitive codes in both tables. -/
theorem prim_code {code : Char} (h : (BaseType.prim code).Valid) :
    code ≠ '[' ∧ code ≠ 'L' ∧ mutf8Char code = [UInt8.ofNat code.toNat] ∧
      UInt8.ofNat code.toNat ≠ 0x5b ∧ UInt8.ofNat code.toNat ≠ 0x4c ∧
      Cpp.primName (UInt8.ofNat code.toNat) = mutf8 (dalvikPrim code) := by
  have hcodes : "VZBSCIJFD".toList = ['V', 'Z', 'B', 'S', 'C', 'I', 'J', 'F', 'D'] := rfl
  unfold BaseType.Valid at h
  rw [hcodes] at h
  simp only [List.mem_cons, List.not_mem_nil, or_false] at h
  obtain rfl | rfl | rfl | rfl | rfl | rfl | rfl | rfl | rfl := h <;> decide

/-- Both loops read one parameter alike. -/
theorem paramTypesFrom_text {p : TypeDescriptor} (hp : p.base.Valid) (rest : Text) :
    (∀ rounds, paramTypesFrom (rounds + 1) (p.text ++ rest) =
      p.simple :: paramTypesFrom rounds rest) ∧
    ∀ rounds, Cpp.paramTypesFrom (rounds + 1) (mutf8 (p.text ++ rest)) =
      mutf8 p.simple :: Cpp.paramTypesFrom rounds (mutf8 rest) := by
  obtain ⟨dims, code | path⟩ := p
  · obtain ⟨hopen, hcls, hbytes, hopen', hcls', hname⟩ := prim_code hp
    have htext : (⟨dims, .prim code⟩ : TypeDescriptor).text ++ rest =
        List.replicate dims '[' ++ code :: rest := by
      simp [TypeDescriptor.text, BaseType.text]
    rw [htext]
    refine ⟨fun rounds => paramTypesFrom_prim hopen hcls rounds dims rest, fun rounds => ?_⟩
    rw [mutf8_append, mutf8_replicate, mutf8_cons, hbytes, List.singleton_append,
      Cpp.paramTypesFrom_prim hopen' hcls', hname, arraySuffix_eq, ← mutf8_append]
    rfl
  · have hpath : ';' ∉ path := fun hc => hp _ hc (by decide)
    have hpath' : 0x3b ∉ mutf8 path := fun hc =>
      hpath ((mem_mutf8_iff (d := ';') (by decide) (by decide) path).mp hc)
    have htext : (⟨dims, .cls path⟩ : TypeDescriptor).text ++ rest =
        List.replicate dims '[' ++ 'L' :: (path ++ ';' :: rest) := by
      simp [TypeDescriptor.text, BaseType.text]
    have hL : mutf8Char 'L' = [0x4c] := rfl
    have hsemi : mutf8Char ';' = [0x3b] := rfl
    rw [htext]
    refine ⟨fun rounds => paramTypesFrom_cls hpath rounds dims rest, fun rounds => ?_⟩
    rw [mutf8_append, mutf8_replicate, mutf8_cons, hL, List.singleton_append, mutf8_append,
      mutf8_cons, hsemi, List.singleton_append, Cpp.paramTypesFrom_cls hpath',
      simpleName_mutf8, arraySuffix_eq, ← mutf8_append]
    rfl

theorem paramTypesFrom_texts {ps : List TypeDescriptor} (hps : ∀ p ∈ ps, p.base.Valid)
    {rounds : Nat} (hrounds : ps.length ≤ rounds) :
    paramTypesFrom rounds (ps.flatMap TypeDescriptor.text) = ps.map TypeDescriptor.simple ∧
      Cpp.paramTypesFrom rounds (mutf8 (ps.flatMap TypeDescriptor.text)) =
        (ps.map TypeDescriptor.simple).map mutf8 := by
  induction ps generalizing rounds with
  | nil => cases rounds <;> exact ⟨rfl, rfl⟩
  | cons p ps ih =>
    obtain ⟨rounds, rfl⟩ : ∃ m, rounds = m + 1 :=
      ⟨rounds - 1, by rw [List.length_cons] at hrounds; omega⟩
    obtain ⟨hpy, hcpp⟩ := paramTypesFrom_text (hps p List.mem_cons_self)
      (ps.flatMap TypeDescriptor.text)
    obtain ⟨ihpy, ihcpp⟩ := ih (fun q hq => hps q (List.mem_cons_of_mem p hq))
      (Nat.le_of_succ_le_succ hrounds)
    rw [List.flatMap_cons, hpy, hcpp, ihpy, ihcpp]
    exact ⟨rfl, rfl⟩

theorem length_le_mutf8 (t : Text) : t.length ≤ (mutf8 t).length := by
  induction t with
  | nil => exact Nat.le_refl 0
  | cons c t ih =>
    have hpos : 0 < (mutf8Char c).length := by
      refine List.length_pos_iff.mpr fun hnil => mutf8Char_ne_nil c ?_
      rw [hnil]
      rfl
    rw [mutf8_cons, List.length_append, List.length_cons]
    omega

theorem length_le_texts (ps : List TypeDescriptor) :
    ps.length ≤ (ps.flatMap TypeDescriptor.text).length := by
  induction ps with
  | nil => exact Nat.le_refl 0
  | cons p ps ih =>
    have hpos : 1 ≤ p.text.length := by
      obtain ⟨dims, code | path⟩ := p <;>
        simp only [TypeDescriptor.text, BaseType.text, List.length_append, List.length_cons] <;>
        omega
    rw [List.length_cons, List.flatMap_cons, List.length_append]
    omega

theorem not_mem_text {p : TypeDescriptor} (hp : p.base.Valid) : ')' ∉ p.text := by
  obtain ⟨dims, code | path⟩ := p
  · have hclose : ¬(BaseType.prim ')').Valid := by
      unfold BaseType.Valid
      decide
    have hcode : code ≠ ')' := by
      rintro rfl
      exact hclose hp
    simp [TypeDescriptor.text, BaseType.text, hcode.symm]
  · have hpath : ')' ∉ path := fun hc => hp _ hc (by decide)
    simp [TypeDescriptor.text, BaseType.text, hpath]

/-- Both sides split the proto of a method into the same types. -/
theorem dalvikParamTypes_proto (m : MethodId) :
    dalvikParamTypes m.proto = m.params.map TypeDescriptor.simple ∧
      Cpp.dalvikParamTypes (mutf8 m.proto) = (m.params.map TypeDescriptor.simple).map mutf8 := by
  have hclose : ')' ∉ m.params.flatMap TypeDescriptor.text := by
    intro h
    obtain ⟨p, hp, hc⟩ := List.mem_flatMap.mp h
    exact not_mem_text (m.params_valid p hp) hc
  have hclose' : (0x29 : UInt8) ∉ mutf8 (m.params.flatMap TypeDescriptor.text) := fun h =>
    hclose ((mem_mutf8_iff (d := ')') (by decide) (by decide) _).mp h)
  have hlen := length_le_texts m.params
  constructor
  · obtain ⟨hopenAt, hcloseAt, hinner⟩ := between_delimiters (by decide : '(' ≠ ')') hclose m.ret
    unfold dalvikParamTypes MethodId.proto
    rw [hopenAt, hcloseAt]
    dsimp only
    rw [if_neg (Nat.not_lt_zero _), hinner]
    exact (paramTypesFrom_texts m.params_valid hlen).1
  · obtain ⟨hopenAt, hcloseAt, hinner⟩ :=
      between_delimiters (by decide : (0x28 : UInt8) ≠ 0x29) hclose' (mutf8 m.ret)
    have hbytes : mutf8 m.proto =
        0x28 :: mutf8 (m.params.flatMap TypeDescriptor.text) ++ 0x29 :: mutf8 m.ret := by
      have hopen : mutf8Char '(' = [0x28] := rfl
      have hend : mutf8Char ')' = [0x29] := rfl
      rw [MethodId.proto, List.cons_append, mutf8_cons, mutf8_append, mutf8_cons, hopen, hend]
      rfl
    unfold Cpp.dalvikParamTypes
    rw [hbytes, hopenAt, hcloseAt]
    dsimp only
    rw [if_neg (Nat.not_lt_zero _), hinner]
    exact (paramTypesFrom_texts m.params_valid (hlen.trans (length_le_mutf8 _))).2

/-! The references. -/

/-- A reference as C++ holds it. -/
def ExternalMethodRef.bytes (ref : ExternalMethodRef Text) : ExternalMethodRef (List UInt8) :=
  ⟨mutf8 ref.classDescriptor, mutf8 ref.name, mutf8 ref.proto⟩

def MethodId.ref (m : MethodId) : ExternalMethodRef Text := ⟨m.owner.text, m.name, m.proto⟩

theorem refMatches_bytes (m : MethodId) {types : List Text} (htypes : ∀ t ∈ types, Plain t)
    (arityMap : List (Nat × Nat)) :
    Cpp.refMatches m.ref.bytes (types.map Utf8.encode) arityMap =
      refMatches m.ref.proto types arityMap := by
  obtain ⟨hpy, hcpp⟩ := dalvikParamTypes_proto m
  have hencode : types.map Utf8.encode = types.map mutf8 :=
    List.map_congr_left fun t ht => (htypes t ht).utf8
  have heq : (m.params.map TypeDescriptor.simple).map mutf8 = types.map mutf8 ↔
      m.params.map TypeDescriptor.simple = types :=
    (List.map_injective_iff.mpr mutf8_injective).eq_iff
  unfold Cpp.refMatches refMatches
  rw [show m.ref.bytes.proto = mutf8 m.proto from rfl, show m.ref.proto = m.proto from rfl,
    hpy, hcpp, hencode]
  simp only [List.length_map, heq]

theorem descriptor_bytes (ref : ExternalMethodRef Text) :
    Cpp.descriptor ref.bytes = mutf8 ref.descriptor := by
  have harrow : ascii "->" = mutf8 "->".toList := rfl
  unfold Cpp.descriptor ExternalMethodRef.descriptor
  rw [mutf8_append, mutf8_append, mutf8_append, harrow]
  rfl

theorem keptCallers_bytes (s : JoinSession) (appOnly : Bool) (ref : ExternalMethodRef Text) :
    Cpp.keptCallers s appOnly ref.bytes = (keptCallers s appOnly ref).map mutf8 := by
  unfold Cpp.keptCallers keptCallers Cpp.findCallSitesToApi JoinSession.findCallSitesTo
  rw [descriptor_bytes, List.filterMap_map, List.map_filterMap]
  refine List.filterMap_congr fun site _ => ?_
  simp only [Function.comp_apply, isFrameworkCaller_mutf8]
  cases site.shadowed <;> cases (appOnly && isFrameworkCaller site.callerDescriptor) <;> rfl

theorem indexed_flatMap {κ ρ α : Type} [DecidableEq κ] (l : List α) (f : α → List (κ × ρ))
    (key : κ) : indexed (l.flatMap f) key = l.flatMap fun a => indexed (f a) key := by
  induction l with
  | nil => rfl
  | cons a l ih =>
    rw [List.flatMap_cons, List.flatMap_cons, ← ih]
    simp [indexed]

theorem indexed_map {κ ρ κ' ρ' : Type} [DecidableEq κ] [DecidableEq κ'] {g : κ → κ'}
    (hg : Function.Injective g) (f : ρ → ρ') (l : List (κ × ρ)) (key : κ) :
    indexed (l.map (Prod.map g f)) (g key) = (indexed l key).map f := by
  unfold indexed
  rw [List.filter_map, List.map_map, List.map_map]
  have hkeep : ((fun e : κ' × ρ' => decide (e.1 = g key)) ∘ Prod.map g f) =
      fun e : κ × ρ => decide (e.1 = key) := by
    funext e
    simp [hg.eq_iff]
  rw [hkeep]
  rfl

theorem indexed_eq_nil {κ ρ : Type} [DecidableEq κ] {l : List (κ × ρ)} {key : κ}
    (h : ∀ e ∈ l, e.1 ≠ key) : indexed l key = [] := by
  unfold indexed
  rw [List.map_eq_nil_iff, List.filter_eq_nil_iff]
  exact fun e he => by simpa using h e he

theorem descriptorToJava_cls (path : Text) :
    descriptorToJava ('L' :: (path ++ [';'])) = path.map fun c => if c = '/' then '.' else c := by
  obtain ⟨d, rest, hrest⟩ := List.exists_cons_of_ne_nil (l := path ++ [';']) (by simp)
  have hbase : ('L' :: (path ++ [';'])).dropWhile (· = '[') = 'L' :: d :: rest := by
    rw [hrest]
    rfl
  have hlen : ('L' :: (path ++ [';'])).takeWhile (· = '[') = [] := rfl
  unfold descriptorToJava
  rw [hbase, hlen]
  change (if (d :: rest).getLast? = some ';' then
      (d :: rest).dropLast.map fun c => if c = '/' then '.' else c
    else 'L' :: d :: rest) ++ brackets 0 = _
  rw [← hrest, List.getLast?_concat, if_pos rfl, List.dropLast_concat, brackets, List.append_nil]

/-- The dotted name of a class. -/
theorem class_names (path : Text) :
    ((descriptorToJava (⟨0, .cls path⟩ : TypeDescriptor).text).map fun c =>
        if c = '$' then '.' else c) = path.map dotted ∧
      Cpp.classToDotted (mutf8 (⟨0, .cls path⟩ : TypeDescriptor).text) =
        mutf8 (path.map dotted) := by
  have htext : (⟨0, .cls path⟩ : TypeDescriptor).text = 'L' :: (path ++ [';']) := rfl
  rw [htext]
  constructor
  · rw [descriptorToJava_cls, List.map_map]
    refine List.map_congr_left fun c _ => ?_
    unfold dotted
    by_cases hslash : c = '/' <;> by_cases hdollar : c = '$' <;> simp_all
  · have hbytes : mutf8 ('L' :: (path ++ [';'])) = 0x4c :: (mutf8 path ++ [0x3b]) := by
      rw [mutf8_cons, mutf8_append]
      rfl
    have hclass : 2 ≤ (0x4c :: (mutf8 path ++ [0x3b])).length ∧
        (0x4c :: (mutf8 path ++ [0x3b])).head? = some 0x4c ∧
        (0x4c :: (mutf8 path ++ [0x3b])).getLast? = some 0x3b := by
      simp [List.getLast?_cons]
    unfold Cpp.classToDotted
    rw [hbytes, if_pos hclass, List.tail_cons, List.dropLast_concat, map_dotted]

/-- The name of an array has a bracket on either side. -/
theorem array_names (dims : Nat) (base : BaseType) :
    '[' ∈ ((descriptorToJava (⟨dims + 1, base⟩ : TypeDescriptor).text).map fun c =>
        if c = '$' then '.' else c) ∧
      0x5b ∈ Cpp.classToDotted (mutf8 (⟨dims + 1, base⟩ : TypeDescriptor).text) := by
  have htext : (⟨dims + 1, base⟩ : TypeDescriptor).text =
      '[' :: (List.replicate dims '[' ++ base.text) := rfl
  rw [htext]
  constructor
  · refine List.mem_map.mpr ⟨'[', ?_, rfl⟩
    unfold descriptorToJava
    rw [List.takeWhile_cons_of_pos (by decide)]
    exact List.mem_append_right _ List.mem_cons_self
  · have hhead : mutf8 ('[' :: (List.replicate dims '[' ++ base.text)) =
        0x5b :: mutf8 (List.replicate dims '[' ++ base.text) := by
      rw [mutf8_cons]
      rfl
    unfold Cpp.classToDotted
    rw [hhead, if_neg (by simp)]
    exact List.mem_map.mpr ⟨0x5b, List.mem_cons_self, rfl⟩

theorem class_of_mem_indexEntries {ref : ExternalMethodRef Text}
    {e : (Text × Text) × ExternalMethodRef Text} (h : e ∈ indexEntries ref) :
    e.1.1 = (descriptorToJava ref.classDescriptor).map fun c => if c = '$' then '.' else c := by
  unfold indexEntries at h
  obtain rfl | h := List.mem_cons.mp h
  · rfl
  · split at h
    · rw [List.mem_singleton.mp h]
    · cases h

theorem Cpp.class_of_mem_indexEntries {ref : ExternalMethodRef (List UInt8)}
    {e : (List UInt8 × List UInt8) × ExternalMethodRef (List UInt8)}
    (h : e ∈ Cpp.indexEntries ref) : e.1.1 = Cpp.classToDotted ref.classDescriptor := by
  unfold Cpp.indexEntries at h
  obtain rfl | h := List.mem_cons.mp h
  · rfl
  · split at h
    · rw [List.mem_singleton.mp h]
    · cases h

/-- A reference is found under the same keys of the table. -/
theorem indexEntries_bytes (m : MethodId) {cls method : Text} (hcls : Plain cls)
    (hmethod : Plain method) (harray : '[' ∉ cls) :
    indexed (Cpp.indexEntries m.ref.bytes) (Utf8.encode cls, Utf8.encode method) =
      (indexed (indexEntries m.ref) (cls, method)).map ExternalMethodRef.bytes := by
  obtain ⟨⟨dims, base⟩, name, params, ret, hvalid, href, hparams⟩ := m
  cases dims with
  | zero =>
    obtain ⟨path, rfl⟩ := href rfl
    obtain ⟨hpy, hcpp⟩ := class_names path
    have hsimple : Cpp.simpleName (mutf8 (path.map dotted)) =
        mutf8 (afterLast '.' (path.map dotted)) := by
      have hself : (path.map dotted).map dotted = path.map dotted := by
        rw [List.map_map]
        exact List.map_congr_left fun c _ => dotted_dotted c
      rw [simpleName_mutf8]
      change mutf8 (afterLast '.' ((path.map dotted).map dotted)) = _
      rw [hself]
    have hinit : mutf8 name = ascii "<init>" ↔ name = "<init>".toList := by
      have hbytes : ascii "<init>" = mutf8 "<init>".toList := rfl
      rw [hbytes, mutf8_injective.eq_iff]
    have hentries : ∀ ref : ExternalMethodRef Text,
        ref.classDescriptor = (⟨0, .cls path⟩ : TypeDescriptor).text → ref.name = name →
        Cpp.indexEntries ref.bytes =
          (indexEntries ref).map (Prod.map (Prod.map mutf8 mutf8) ExternalMethodRef.bytes) := by
      rintro ⟨_, _, proto⟩ rfl rfl
      unfold Cpp.indexEntries indexEntries
      simp only [ExternalMethodRef.bytes, hpy, hcpp, hsimple, hinit]
      split <;> rfl
    have hkey : Function.Injective (Prod.map mutf8 mutf8) :=
      Prod.map_injective.mpr ⟨mutf8_injective, mutf8_injective⟩
    rw [hentries _ rfl rfl, hcls.utf8, hmethod.utf8]
    exact indexed_map hkey _ _ (cls, method)
  | succ dims =>
    obtain ⟨hpy, hcpp⟩ := array_names dims base
    rw [indexed_eq_nil, indexed_eq_nil, List.map_nil]
    · intro e he heq
      have hclass := class_of_mem_indexEntries he
      rw [heq] at hclass
      exact harray (by dsimp only at hclass; rw [hclass]; exact hpy)
    · intro e he heq
      have hclass := Cpp.class_of_mem_indexEntries he
      rw [heq] at hclass
      have hbracket : 0x5b ∈ mutf8 cls := by
        rw [← hcls.utf8]
        dsimp only at hclass
        rw [hclass]
        exact hcpp
      exact harray ((mem_mutf8_iff (d := '[') (by decide) (by decide) cls).mp hbracket)

theorem ref_of_mem_indexed {m : MethodId} {key : Text × Text} {ref : ExternalMethodRef Text}
    (h : ref ∈ indexed (indexEntries m.ref) key) : ref = m.ref := by
  obtain ⟨e, he, rfl⟩ := List.mem_map.mp h
  have he := List.mem_of_mem_filter he
  unfold indexEntries at he
  obtain rfl | he := List.mem_cons.mp he
  · rfl
  · split at he
    · rw [List.mem_singleton.mp he]
    · cases he

theorem matched_of_method (m : MethodId) {cls method : Text} (hcls : Plain cls)
    (hmethod : Plain method) (harray : '[' ∉ cls) {types : List Text}
    (htypes : ∀ t ∈ types, Plain t) (arityMap : List (Nat × Nat)) :
    (indexed (Cpp.indexEntries m.ref.bytes) (Utf8.encode cls, Utf8.encode method)).filter
        (fun ref => Cpp.refMatches ref (types.map Utf8.encode) arityMap) =
      ((indexed (indexEntries m.ref) (cls, method)).filter fun ref =>
        refMatches ref.proto types arityMap).map ExternalMethodRef.bytes := by
  rw [indexEntries_bytes m hcls hmethod harray, List.filter_map]
  congr 1
  refine List.filter_congr fun ref href => ?_
  rw [ref_of_mem_indexed href]
  exact refMatches_bytes m htypes arityMap

/-! The rows. -/

def PermCallerRow.bytes (r : PermCallerRow Text) : PermCallerRow (List UInt8) :=
  ⟨Utf8.encode r.api, r.descriptors.map mutf8, r.callers.map mutf8⟩

/-- A group as C++ holds it. -/
def PermCallerGroup.bytes (g : PermCallerGroup Text) : PermCallerGroup (List UInt8) :=
  ⟨Utf8.encode g.perm, Utf8.encode g.protectionLevel, g.rows.map PermCallerRow.bytes⟩

variable (table : PermTable tables) (s : JoinSession) (appOnly : Bool)

theorem overloads_bytes (cls method : Text) :
    (Cpp.permApiData table).overloads.lookup (Utf8.encode cls, Utf8.encode method) =
      table.overloadIndex.lookup (cls, method) := by
  have hkey : Function.Injective (Prod.map Utf8.encode Utf8.encode) :=
    Prod.map_injective.mpr ⟨utf8_injective, utf8_injective⟩
  change (table.overloadIndex.map (Prod.map (Prod.map Utf8.encode Utf8.encode) id)).lookup
    (Prod.map Utf8.encode Utf8.encode (cls, method)) = _
  rw [Association.lookup_map_key hkey, Option.map_id, id]

variable {table} {sig : Text} {types : List Text}

/-- The references that realise an entry are the same. -/
theorem matched_bytes {e : Text × List Text} (he : e ∈ table.entries) (hsig : sig ∈ e.2)
    (htypes : (parseApi tables sig).types = some types) :
    (indexed (Cpp.methodIndex (Cpp.listExternalMethodRefs s))
        (Utf8.encode (parseApi tables sig).cls, Utf8.encode (parseApi tables sig).method)).filter
      (fun ref => Cpp.refMatches ref (types.map Utf8.encode)
        (((Cpp.permApiData table).overloads.lookup
          (Utf8.encode (parseApi tables sig).cls,
            Utf8.encode (parseApi tables sig).method)).getD [])) =
      (matchedRefs table s sig types).map ExternalMethodRef.bytes := by
  obtain ⟨hcls, hmethod, hplain⟩ := table.plain e he sig hsig types htypes
  have harray := table.no_array e he sig hsig
  have hcpp : Cpp.listExternalMethodRefs s = s.external.map fun m => m.ref.bytes := rfl
  have hpy : s.listExternalMethodRefs = s.external.map MethodId.ref := rfl
  unfold matchedRefs Cpp.methodIndex externalMethodIndex
  dsimp only
  rw [overloads_bytes, hcpp, hpy, List.flatMap_map, List.flatMap_map, indexed_flatMap,
    indexed_flatMap, List.filter_flatMap, List.filter_flatMap, List.map_flatMap]
  exact List.flatMap_congr fun m _ => matched_of_method m hcls hmethod harray hplain _

/-- The callers a row of the entry lists. -/
def callersOf (table : PermTable tables) (s : JoinSession) (appOnly : Bool) (sig : Text)
    (types : List Text) : List Text :=
  (matchedRefs table s sig types).flatMap (keptCallers s appOnly)

/-- No two descriptors and no two callers of the entry are inverted. -/
structure InOrder (table : PermTable tables) (s : JoinSession) (appOnly : Bool) (sig : Text)
    (types : List Text) : Prop where
  descriptors : ∀ r ∈ matchedRefs table s sig types, ∀ r' ∈ matchedRefs table s sig types,
    ¬Inverted r.descriptor r'.descriptor
  callers : ∀ c ∈ callersOf table s appOnly sig types,
    ∀ c' ∈ callersOf table s appOnly sig types, ¬Inverted c c'

theorem sortedSet_bytes_iff (l : List Text) :
    sortedSet byteValues (l.map mutf8) = (sortedSet codePoints l).map mutf8 ↔
      ∀ a ∈ l, ∀ b ∈ l, ¬Inverted a b := by
  rw [sortedSet_map_iff codePoints_injective byteValues_injective mutf8_injective]
  exact forall₂_congr fun a _ => forall₂_congr fun b _ => order_agrees_iff a b

/-- The C++ row of an entry, in terms of the references Python matches. -/
theorem rowOf_bytes {e : Text × List Text} (he : e ∈ table.entries) (hsig : sig ∈ e.2)
    (htypes : (parseApi tables sig).types = some types) {entry : Cpp.PermApiEntry}
    (hentry : Cpp.entryFor table e.1 sig = some entry) :
    Cpp.rowOf (Cpp.permApiData table) s appOnly entry =
      if callersOf table s appOnly sig types = [] then none
      else some ⟨Utf8.encode sig,
        sortedSet byteValues (((matchedRefs table s sig types).map (·.descriptor)).map mutf8),
        sortedSet byteValues ((callersOf table s appOnly sig types).map mutf8)⟩ := by
  unfold Cpp.entryFor at hentry
  dsimp only at hentry
  rw [htypes] at hentry
  obtain rfl := Option.some.inj hentry
  have hmatched := matched_bytes s he hsig htypes
  have hcallers : ((matchedRefs table s sig types).map ExternalMethodRef.bytes).flatMap
      (Cpp.keptCallers s appOnly) = (callersOf table s appOnly sig types).map mutf8 := by
    unfold callersOf
    rw [List.flatMap_map, List.map_flatMap]
    exact List.flatMap_congr fun ref _ => keptCallers_bytes s appOnly ref
  have hdescriptors : ((matchedRefs table s sig types).map ExternalMethodRef.bytes).map
      Cpp.descriptor = ((matchedRefs table s sig types).map (·.descriptor)).map mutf8 := by
    rw [List.map_map, List.map_map]
    exact List.map_congr_left fun ref _ => descriptor_bytes ref
  unfold Cpp.rowOf
  dsimp only
  rw [hmatched, hcallers, hdescriptors]
  simp only [List.map_eq_nil_iff]

/-- The rows of an entry agree exactly when the entry has none or its texts are in the
same order. -/
theorem row_agrees_iff {e : Text × List Text} (he : e ∈ table.entries) (hsig : sig ∈ e.2)
    (htypes : (parseApi tables sig).types = some types) {entry : Cpp.PermApiEntry}
    (hentry : Cpp.entryFor table e.1 sig = some entry) :
    Cpp.rowOf (Cpp.permApiData table) s appOnly entry =
        (rowOf table s appOnly sig).map PermCallerRow.bytes ↔
      (callersOf table s appOnly sig types ≠ [] → InOrder table s appOnly sig types) := by
  have hpy : rowOf table s appOnly sig =
      if callersOf table s appOnly sig types = [] then none
      else some ⟨sig, sortedSet codePoints ((matchedRefs table s sig types).map (·.descriptor)),
        sortedSet codePoints (callersOf table s appOnly sig types)⟩ := by
    unfold rowOf
    rw [htypes]
    rfl
  rw [rowOf_bytes s appOnly he hsig htypes hentry, hpy]
  by_cases hnone : callersOf table s appOnly sig types = []
  · simp [hnone]
  · rw [if_neg hnone, if_neg hnone, Option.map_some, Option.some.injEq, PermCallerRow.bytes,
      PermCallerRow.mk.injEq, sortedSet_bytes_iff, sortedSet_bytes_iff]
    constructor
    · rintro ⟨-, hdescriptors, hcallers⟩ -
      refine ⟨fun r hr r' hr' => ?_, hcallers⟩
      exact hdescriptors _ (List.mem_map_of_mem hr) _ (List.mem_map_of_mem hr')
    · intro h
      obtain ⟨hdescriptors, hcallers⟩ := h hnone
      refine ⟨rfl, ?_, hcallers⟩
      intro a ha b hb
      obtain ⟨r, hr, rfl⟩ := List.mem_map.mp ha
      obtain ⟨r', hr', rfl⟩ := List.mem_map.mp hb
      exact hdescriptors r hr r' hr'

/-! The groups. -/

section Walk

variable {row : Cpp.PermApiEntry → Option (PermCallerRow (List UInt8))}
  {perm level : List UInt8} {block : List Cpp.PermApiEntry}

theorem walk_opened (hblock : ∀ e ∈ block, e.perm = perm ∧ e.level = level)
    (result : List (PermCallerGroup (List UInt8))) (rows : List (PermCallerRow (List UInt8))) :
    block.foldl (Cpp.walkEntry row) ⟨result ++ [⟨perm, level, rows⟩], perm, true⟩ =
      ⟨result ++ [⟨perm, level, rows ++ block.filterMap row⟩], perm, true⟩ := by
  induction block generalizing rows with
  | nil => simp
  | cons e block ih =>
    obtain ⟨hperm, hlevel⟩ := hblock e List.mem_cons_self
    have hrest : ∀ e ∈ block, e.perm = perm ∧ e.level = level := fun e' he' =>
      hblock e' (List.mem_cons_of_mem e he')
    rw [List.foldl_cons, Cpp.walkEntry, if_neg (by simp [hperm]), List.filterMap_cons]
    cases hrow : row e with
    | none => exact ih hrest rows
    | some r =>
      have hpush : (result ++ [(⟨perm, level, rows⟩ : PermCallerGroup (List UInt8))]).modifyLast
          (Cpp.pushRow r) = result ++ [⟨perm, level, rows ++ [r]⟩] :=
        List.modifyLast_concat _ _ _
      dsimp only
      rw [if_pos rfl, hpush, ih hrest, List.append_assoc, List.singleton_append]

theorem walk_closed (hblock : ∀ e ∈ block, e.perm = perm ∧ e.level = level)
    (result : List (PermCallerGroup (List UInt8))) :
    block.foldl (Cpp.walkEntry row) ⟨result, perm, false⟩ =
      if block.filterMap row = [] then ⟨result, perm, false⟩
      else ⟨result ++ [⟨perm, level, block.filterMap row⟩], perm, true⟩ := by
  induction block with
  | nil => rfl
  | cons e block ih =>
    obtain ⟨hperm, hlevel⟩ := hblock e List.mem_cons_self
    have hrest : ∀ e ∈ block, e.perm = perm ∧ e.level = level := fun e' he' =>
      hblock e' (List.mem_cons_of_mem e he')
    rw [List.foldl_cons, Cpp.walkEntry, if_neg (by simp [hperm]), List.filterMap_cons]
    cases hrow : row e with
    | none => exact ih hrest
    | some r =>
      have hpush : (result ++ [(⟨e.perm, e.level, []⟩ : PermCallerGroup (List UInt8))]).modifyLast
          (Cpp.pushRow r) = result ++ [⟨perm, level, [] ++ [r]⟩] := by
        rw [hperm, hlevel]
        exact List.modifyLast_concat _ _ _
      dsimp only
      rw [if_neg (by simp), hpush, walk_opened hrest]
      simp

/-- One permission adds one group at most, and the next ones still open their own. -/
theorem walk_block (hblock : ∀ e ∈ block, e.perm = perm ∧ e.level = level) (w : Cpp.Walk)
    (hnew : w.curPerm ≠ perm ∨ w.opened = false) :
    (block.foldl (Cpp.walkEntry row) w).result =
        w.result ++ (if block.filterMap row = [] then []
          else [⟨perm, level, block.filterMap row⟩]) ∧
      ((block.foldl (Cpp.walkEntry row) w).curPerm = perm ∨
        block.foldl (Cpp.walkEntry row) w = w) := by
  cases block with
  | nil => simp
  | cons e block =>
    obtain ⟨hperm, hlevel⟩ := hblock e List.mem_cons_self
    have henter : Cpp.walkEntry row w e = Cpp.walkEntry row ⟨w.result, perm, false⟩ e := by
      obtain ⟨result, cur, opened⟩ := w
      unfold Cpp.walkEntry
      by_cases hcur : perm = cur
      · obtain h | h := hnew
        · exact absurd hcur.symm h
        · simp_all
      · simp [hperm, hcur]
    have hrun := @walk_closed row _ _ _ hblock w.result
    rw [List.foldl_cons] at hrun ⊢
    rw [henter, hrun]
    split <;> simp

end Walk

theorem cpp_groups (table : PermTable tables)
    (row : Cpp.PermApiEntry → Option (PermCallerRow (List UInt8))) :
    ((Cpp.permApiData table).entries.foldl (Cpp.walkEntry row) ⟨[], [], false⟩).result =
      table.entries.filterMap fun e =>
        let rows := (e.2.filterMap (Cpp.entryFor table e.1)).filterMap row
        if rows = [] then none
        else some ⟨Utf8.encode e.1, Utf8.encode (table.level e.1), rows⟩ := by
  have hwalk : ∀ (entries : List (Text × List Text)) (w : Cpp.Walk),
      (entries.map Prod.fst).Nodup →
      (∀ e ∈ entries, w.curPerm ≠ Utf8.encode e.1 ∨ w.opened = false) →
      ((entries.flatMap fun e => e.2.filterMap (Cpp.entryFor table e.1)).foldl
          (Cpp.walkEntry row) w).result =
        w.result ++ entries.filterMap fun e =>
          let rows := (e.2.filterMap (Cpp.entryFor table e.1)).filterMap row
          if rows = [] then none
          else some ⟨Utf8.encode e.1, Utf8.encode (table.level e.1), rows⟩ := by
    intro entries
    induction entries with
    | nil => simp
    | cons e entries ih =>
      intro w hnodup hnew
      have hblock : ∀ entry ∈ e.2.filterMap (Cpp.entryFor table e.1),
          entry.perm = Utf8.encode e.1 ∧ entry.level = Utf8.encode (table.level e.1) := by
        intro entry hentry
        obtain ⟨sig, -, hsig⟩ := List.mem_filterMap.mp hentry
        obtain ⟨types, -, rfl⟩ := Option.map_eq_some_iff.mp hsig
        exact ⟨rfl, rfl⟩
      obtain ⟨hresult, hstate⟩ := @walk_block row _ _ _ hblock w (hnew e List.mem_cons_self)
      rw [List.map_cons, List.nodup_cons] at hnodup
      rw [List.flatMap_cons, List.foldl_append, ih _ hnodup.2, hresult, List.filterMap_cons,
        List.append_assoc]
      · dsimp only
        split <;> rfl
      · intro e' he'
        obtain hcur | hsame := hstate
        · rw [hcur]
          refine Or.inl fun heq => hnodup.1 ?_
          rw [utf8_injective heq]
          exact List.mem_map_of_mem he'
        · rw [hsame]
          exact hnew e' (List.mem_cons_of_mem e he')
  exact hwalk table.entries ⟨[], [], false⟩ table.perms_nodup fun _ _ => Or.inr rfl

theorem filterMap_eq_iff {α β : Type} {f g : α → Option β} {l : List α}
    (h : ∀ a ∈ l, (f a = none ↔ g a = none)) :
    l.filterMap f = l.filterMap g ↔ ∀ a ∈ l, f a = g a := by
  induction l with
  | nil => simp
  | cons a l ih =>
    have ha := h a List.mem_cons_self
    rw [List.filterMap_cons, List.filterMap_cons, List.forall_mem_cons,
      ← ih fun b hb => h b (List.mem_cons_of_mem a hb)]
    cases hf : f a with
    | none => simp [ha.mp hf]
    | some x =>
      obtain ⟨y, hy⟩ := Option.ne_none_iff_exists'.mp fun hnone => by
        rw [ha.mpr hnone] at hf
        cases hf
      simp [hy]

/-- The rows of one signature in the two joins. -/
theorem signature_rows {e : Text × List Text} (he : e ∈ table.entries) (hsig : sig ∈ e.2) :
    ((Cpp.entryFor table e.1 sig).bind (Cpp.rowOf (Cpp.permApiData table) s appOnly) = none ↔
      (rowOf table s appOnly sig).map PermCallerRow.bytes = none) ∧
    ((Cpp.entryFor table e.1 sig).bind (Cpp.rowOf (Cpp.permApiData table) s appOnly) =
        (rowOf table s appOnly sig).map PermCallerRow.bytes ↔
      ∀ types, (parseApi tables sig).types = some types →
        callersOf table s appOnly sig types ≠ [] → InOrder table s appOnly sig types) := by
  cases htypes : (parseApi tables sig).types with
  | none =>
    have hpy : rowOf table s appOnly sig = none := by
      unfold rowOf
      rw [htypes]
    have hcpp : Cpp.entryFor table e.1 sig = none := by
      unfold Cpp.entryFor
      dsimp only
      rw [htypes]
      rfl
    simp [hpy, hcpp]
  | some types =>
    obtain ⟨entry, hentry⟩ : ∃ entry, Cpp.entryFor table e.1 sig = some entry := by
      unfold Cpp.entryFor
      dsimp only
      rw [htypes]
      exact ⟨_, rfl⟩
    have hagree := row_agrees_iff s appOnly he hsig htypes hentry
    have hbytes := rowOf_bytes s appOnly he hsig htypes hentry
    have hpy : rowOf table s appOnly sig = none ↔ callersOf table s appOnly sig types = [] := by
      unfold rowOf
      rw [htypes]
      change (if callersOf table s appOnly sig types = [] then none else some _) = none ↔ _
      split <;> simp_all
    rw [hentry, Option.bind_some]
    constructor
    · rw [Option.map_eq_none_iff, hpy, hbytes]
      split <;> simp_all
    · rw [hagree]
      simp

/-- The rows of one permission. -/
theorem permission_rows {e : Text × List Text} (he : e ∈ table.entries) :
    let rows := (e.2.filterMap (Cpp.entryFor table e.1)).filterMap
      (Cpp.rowOf (Cpp.permApiData table) s appOnly)
    (rows = [] ↔ rowsForPerm table s appOnly e.2 = []) ∧
    (rows = (rowsForPerm table s appOnly e.2).map PermCallerRow.bytes ↔
      ∀ sig ∈ e.2, ∀ types, (parseApi tables sig).types = some types →
        callersOf table s appOnly sig types ≠ [] → InOrder table s appOnly sig types) := by
  intro rows
  have hrows : rows = e.2.filterMap fun sig =>
      (Cpp.entryFor table e.1 sig).bind (Cpp.rowOf (Cpp.permApiData table) s appOnly) :=
    List.filterMap_filterMap
  have hnone : ∀ sig ∈ e.2, ((Cpp.entryFor table e.1 sig).bind
      (Cpp.rowOf (Cpp.permApiData table) s appOnly) = none ↔
        (rowOf table s appOnly sig).map PermCallerRow.bytes = none) := fun sig hsig =>
    (signature_rows s appOnly he hsig).1
  constructor
  · rw [hrows, List.filterMap_eq_nil_iff, rowsForPerm, List.filterMap_eq_nil_iff]
    refine forall₂_congr fun sig hsig => ?_
    rw [hnone sig hsig, Option.map_eq_none_iff]
  · rw [hrows, rowsForPerm, List.map_filterMap, filterMap_eq_iff hnone]
    exact forall₂_congr fun sig hsig => (signature_rows s appOnly he hsig).2

/-- The C++ join returns the groups, levels, rows, descriptors and callers of the Python
join in the same order exactly when, for every table entry with a kept caller, neither two
descriptors nor two callers are inverted: nowhere do they first differ in a supplementary
character against one from U+E000 to U+FFFF. -/
theorem permission_callers_agree_iff (table : PermTable tables) (s : JoinSession)
    (appOnly : Bool) :
    Cpp.permissionCallers (Cpp.permApiData table) s appOnly =
        (permissionApiCallers table s appOnly).map PermCallerGroup.bytes ↔
      ∀ e ∈ table.entries, ∀ sig ∈ e.2, ∀ types, (parseApi tables sig).types = some types →
        callersOf table s appOnly sig types ≠ [] → InOrder table s appOnly sig types := by
  unfold Cpp.permissionCallers permissionApiCallers
  rw [cpp_groups, List.map_filterMap, filterMap_eq_iff]
  · refine forall₂_congr fun e he => ?_
    obtain ⟨hempty, hagree⟩ := permission_rows s appOnly he
    rw [← hagree]
    dsimp only
    by_cases hnone : rowsForPerm table s appOnly e.2 = []
    · rw [if_pos (hempty.mpr hnone), if_pos hnone, hempty.mpr hnone, hnone]
      simp
    · rw [if_neg (mt hempty.mp hnone), if_neg hnone]
      simp [PermCallerGroup.bytes]
  · intro e he
    obtain ⟨hempty, -⟩ := permission_rows s appOnly he
    dsimp only
    by_cases hnone : rowsForPerm table s appOnly e.2 = []
    · rw [if_pos (hempty.mpr hnone), if_pos hnone]
      simp
    · rw [if_neg (mt hempty.mp hnone), if_neg hnone]
      simp

/-! Two callers that are listed in another order. -/

def addressTable : PermTable asciiTables where
  entries := [("android.permission.LOCAL_MAC_ADDRESS".toList,
    ["android.bluetooth.BluetoothAdapter#getAddress()".toList])]
  levels := [("android.permission.LOCAL_MAC_ADDRESS".toList, "signature".toList)]
  perms_nodup := by simp
  plain e he sig hsig types htypes := by
    obtain rfl := List.mem_singleton.mp he
    obtain rfl := List.mem_singleton.mp hsig
    obtain rfl : [] = types := Option.some.inj htypes
    exact ⟨plain_of_plainText (by decide), plain_of_plainText (by decide), by simp⟩
  no_array e he sig hsig := by
    obtain rfl := List.mem_singleton.mp he
    obtain rfl := List.mem_singleton.mp hsig
    decide

def getAddress : MethodId where
  owner := ⟨0, .cls "android/bluetooth/BluetoothAdapter".toList⟩
  name := "getAddress".toList
  params := []
  ret := "Ljava/lang/String;".toList
  owner_valid c hc := by
    have hpath : "android/bluetooth/BluetoothAdapter".toList.all
      (· ∉ [';', '(', ')']) = true := by decide
    simpa using List.all_eq_true.mp hpath c hc
  owner_reference _ := ⟨_, rfl⟩
  params_valid := by simp

/-- A caller in a class named by U+FF21 and one in a class named by U+10400. -/
def wideCallers : JoinSession where
  external := [getAddress]
  sitesTo _ :=
    [⟨'L' :: Char.ofNat 0xFF21 :: ";->f()V".toList, false⟩,
      ⟨'L' :: Char.ofNat 0x10400 :: ";->f()V".toList, false⟩]

set_option maxRecDepth 20000 in
/-- Python lists the class U+FF21 first and C++ the class U+10400. -/
theorem permission_callers_differ : ¬ ∀ (tables : CharTables) (table : PermTable tables)
    (s : JoinSession) (appOnly : Bool),
    Cpp.permissionCallers (Cpp.permApiData table) s appOnly =
      (permissionApiCallers table s appOnly).map PermCallerGroup.bytes := by
  intro h
  exact absurd (h asciiTables addressTable wideCallers true) (by decide)

end Dexllm.Permissions
