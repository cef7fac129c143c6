import Dexllm.Core.DexItemSpecs
import Dexllm.Lib.Delimited
import Mathlib.Data.List.Forall2

/-!
Printed descriptors of a verified and loaded dex. Type descriptors delimit
themselves and identifier strings are distinct, so a printed method descriptor
can be taken apart again and names one method_id.
-/

namespace Dexllm

open Guarded Bytes Leb128 Mutf8 Delimited

/-- Characters that stand in no name: the ones a printed descriptor is
punctuated with, and all whitespace but the blank. -/
def punctuation : List UInt8 := [0x09, 0x0a, 0x0d, 0x28, 0x29, 0x3e]

theorem MemberByte.not_punctuation {b : UInt8} (h : MemberByte b) :
    b ∉ punctuation ∧ b ≠ 0x3b := by
  have hbytes : ∀ n < 256, 0x80 ≤ n ∨ memberValidLowAscii n = true →
      n ∉ [0x09, 0x0a, 0x0d, 0x28, 0x29, 0x3e, 0x3b] := by
    set_option maxRecDepth 8000 in decide
  have hb := hbytes b.toNat b.toNat_lt h
  constructor
  · intro hmem
    apply hb
    simp only [punctuation, List.mem_cons, List.not_mem_nil, or_false] at hmem
    rcases hmem with rfl | rfl | rfl | rfl | rfl | rfl <;> simp
  · rintro rfl
    exact hb (by simp)

theorem IsClassName.not_punctuation {bs : List UInt8} (h : IsClassName bs) {b : UInt8}
    (hb : b ∈ bs) : b ∉ punctuation ∧ b ≠ 0x3b := by
  rcases h b hb with hmember | rfl
  · exact hmember.not_punctuation
  · decide

theorem IsMemberName.not_punctuation {bs : List UInt8} (h : IsMemberName bs) {b : UInt8}
    (hb : b ∈ bs) : b = 0x3e ∨ b ∉ punctuation := by
  rcases h.2 with hall | ⟨mid, rfl, hall⟩
  · exact .inr (hall b hb).not_punctuation.1
  · simp only [List.mem_cons, List.mem_append, List.not_mem_nil, or_false] at hb
    rcases hb with rfl | hb | rfl
    · exact .inr (by decide)
    · exact .inr (hall b hb).not_punctuation.1
    · exact .inl rfl

theorem IsMemberName.not_paren {bs : List UInt8} (h : IsMemberName bs) : 0x28 ∉ bs := fun hb =>
  (h.not_punctuation hb).elim (by decide) fun hnot => hnot (by decide)

/-- A descriptor without its dimensions. -/
def coreDescriptors : Set (List UInt8) :=
  {core | (∃ c : UInt8, core = [c] ∧
      c.toNat ∈ [0x42, 0x43, 0x44, 0x46, 0x49, 0x4a, 0x53, 0x5a, 0x56]) ∨
    ∃ name, core = 0x4c :: (name ++ [0x3b]) ∧ IsClassName name}

theorem coreDescriptors_prefixFree : PrefixFree coreDescriptors := by
  rintro _ (⟨c, rfl, hc⟩ | ⟨name, rfl, hname⟩) _ (⟨c', rfl, hc'⟩ | ⟨name', rfl, hname'⟩) r r' heq
  · rw [(List.cons.inj heq).1]
  · obtain rfl := (List.cons.inj heq).1
    simp at hc
  · obtain rfl := (List.cons.inj heq).1
    simp at hc'
  · have hsemi {cls : List UInt8} (h : IsClassName cls) : 0x3b ∉ cls := fun hb =>
      (h.not_punctuation hb).2 rfl
    have hrest : name ++ 0x3b :: r = name' ++ 0x3b :: r' := by simpa using heq
    obtain ⟨rfl, _⟩ := delimited_inj (hsemi hname) (hsemi hname') hrest
    rfl

theorem isDescriptor_iff {bs : List UInt8} : IsDescriptor bs ↔
    bs ∈ {w | ∃ k, ∃ core ∈ coreDescriptors, w = List.replicate k 0x5b ++ core} := by
  constructor
  · rintro ⟨array, core, hbs, hcore⟩
    exact ⟨array, core, hcore, hbs⟩
  · rintro ⟨array, core, hcore, hbs⟩
    exact ⟨array, core, hbs, hcore⟩

/-- Type descriptors delimit themselves. -/
theorem descriptors_prefixFree : PrefixFree {bs | IsDescriptor bs} := by
  have hmarked := coreDescriptors_prefixFree.marked (t := 0x5b) fun core hcore r => by
    rcases hcore with ⟨c, rfl, hc⟩ | ⟨name, rfl, _⟩
    · rintro ⟨⟩
      simp at hc
    · simp
  intro w hw w' hw' r r' heq
  exact hmarked w (isDescriptor_iff.mp hw) w' (isDescriptor_iff.mp hw') r r' heq

theorem IsDescriptor.ne_nil {bs : List UInt8} (h : IsDescriptor bs) : bs ≠ [] := by
  obtain ⟨array, core, rfl, ⟨c, rfl, _⟩ | ⟨name, rfl, _⟩⟩ := h <;> simp

theorem IsDescriptor.not_punctuation {bs : List UInt8} (h : IsDescriptor bs) {b : UInt8}
    (hb : b ∈ bs) : b ∉ punctuation := by
  obtain ⟨array, core, rfl, hcore⟩ := h
  rcases List.mem_append.mp hb with hb | hb
  · rw [List.eq_of_mem_replicate hb]
    decide
  rcases hcore with ⟨c, rfl, hc⟩ | ⟨name, rfl, hname⟩
  · obtain rfl := List.mem_singleton.mp hb
    intro hmem
    simp only [punctuation, List.mem_cons, List.not_mem_nil, or_false] at hmem
    rcases hmem with rfl | rfl | rfl | rfl | rfl | rfl <;> simp at hc
  · simp only [List.mem_cons, List.mem_append, List.not_mem_nil, or_false] at hb
    rcases hb with rfl | hb | rfl
    · decide
    · exact (hname.not_punctuation hb).1
    · decide

/-- The parts of a printed method descriptor. -/
structure MethodParts where
  cls : List UInt8
  name : List UInt8
  params : List (List UInt8)
  ret : List UInt8

namespace MethodParts

/-- `(params)Ret`. -/
def proto (p : MethodParts) : List UInt8 := 0x28 :: (p.params.flatten ++ 0x29 :: p.ret)

/-- The parts as they are printed: `Class->name(params)Ret`. -/
def text (p : MethodParts) : List UInt8 := p.cls ++ ([0x2d, 0x3e] ++ (p.name ++ p.proto))

structure WellFormed (p : MethodParts) : Prop where
  cls : IsDescriptor p.cls
  name : IsMemberName p.name
  params : ∀ d ∈ p.params, IsDescriptor d
  ret : IsDescriptor p.ret

/-- Well-formed parts can be read off the printed text. -/
theorem text_injective {p q : MethodParts} (hp : p.WellFormed) (hq : q.WellFormed)
    (heq : p.text = q.text) : p = q := by
  obtain ⟨cls, name, params, ret⟩ := p
  obtain ⟨cls', name', params', ret'⟩ := q
  have hclose {ds : List (List UInt8)} (hds : ∀ d ∈ ds, IsDescriptor d) : 0x29 ∉ ds.flatten := by
    intro hmem
    obtain ⟨d, hd, hb⟩ := List.mem_flatten.mp hmem
    exact (hds d hd).not_punctuation hb (by decide)
  obtain ⟨hcls, hrest⟩ := descriptors_prefixFree.append_inj hp.cls hq.cls heq
  obtain ⟨hname, hrest⟩ := delimited_inj hp.name.not_paren hq.name.not_paren
    (List.append_cancel_left hrest)
  obtain ⟨hparams, hret⟩ := delimited_inj (hclose hp.params) (hclose hq.params) hrest
  have hdecode := descriptors_prefixFree.uniquelyDecodable fun h => h.ne_nil rfl
  have hparams := hdecode params params' hp.params hq.params hparams
  simp only at hcls hname hret
  rw [hcls, hname, hparams, hret]

end MethodParts

namespace Verifier

variable {v : Verifier} {i j : Nat} {bs cs : List UInt8}

theorem TextAt.stringAt (h : v.TextAt i bs) : ∃ us, v.StringAt i us ∧ Spelling us bs := by
  obtain ⟨us, rest, hcontent, hspell⟩ := h
  exact ⟨us, ⟨_, hcontent, bs, rest, hspell, rfl⟩, hspell⟩

/-- Identifier strings with the same bytes are one string. -/
theorem InterOk.identifier_unique (h : v.InterOk) (hi : v.IsIdentifier i) (hj : v.IsIdentifier j)
    (hbs : v.TextAt i bs) (hbs' : v.TextAt j bs) : i = j := by
  obtain ⟨us, hus, hspell⟩ := hbs.stringAt
  obtain ⟨vs, hvs, hspell'⟩ := hbs'.stringAt
  obtain rfl := spelling_units_unique hspell hspell'
  rcases Nat.lt_trichotomy i j with hlt | heq | hgt
  · exact absurd (h.identifiers i j us us hi hj hlt hus hvs) (lt_irrefl us)
  · exact heq
  · exact absurd (h.identifiers j i us us hj hi hgt hvs hus) (lt_irrefl us)

/-- Types whose descriptors have the same bytes are one type. -/
theorem InterOk.type_unique (h : v.InterOk) (hi : i < v.header.typeIdsSize)
    (hj : j < v.header.typeIdsSize) (hbs : v.TextAt (v.descriptorIdxAt i) bs)
    (hbs' : v.TextAt (v.descriptorIdxAt j) bs) : i = j := by
  have hsame := h.identifier_unique (.type i hi rfl) (.type j hj rfl) hbs hbs'
  have hstrict := strict_of_adjacent (r := fun a b => v.descriptorIdxAt a < v.descriptorIdxAt b)
    (fun _ _ _ => Nat.lt_trans) h.typeOrder
  rcases Nat.lt_trichotomy i j with hlt | heq | hgt
  · have hless := hstrict i j hlt hj
    omega
  · exact heq
  · have hless := hstrict j i hgt hi
    omega

/-- Protos with the same return and parameter types are one proto. -/
theorem InterOk.proto_unique (h : v.InterOk) (hi : i < v.header.protoIdsSize)
    (hj : j < v.header.protoIdsSize)
    (hret : (protoIdAt v.image (v.protoIdAddr i)).returnTypeIdx =
      (protoIdAt v.image (v.protoIdAddr j)).returnTypeIdx)
    (hparams : v.paramTypes (protoIdAt v.image (v.protoIdAddr i)) =
      v.paramTypes (protoIdAt v.image (v.protoIdAddr j))) : i = j := by
  have hirrefl {p q : ProtoId} (hret : p.returnTypeIdx = q.returnTypeIdx)
      (hparams : v.paramTypes p = v.paramTypes q) : ¬v.ProtoLess p q := by
    rintro (hlt | ⟨_, hlt⟩)
    · omega
    · exact absurd (hparams ▸ hlt) (lt_irrefl _)
  have hstrict := strict_of_adjacent (r := fun a b =>
    v.ProtoLess (protoIdAt v.image (v.protoIdAddr a)) (protoIdAt v.image (v.protoIdAddr b)))
    (fun _ _ _ => ProtoLess.trans) h.protoOrder
  rcases Nat.lt_trichotomy i j with hlt | heq | hgt
  · exact absurd (hstrict i j hlt hj) (hirrefl hret hparams)
  · exact heq
  · exact absurd (hstrict j i hgt hi) (hirrefl hret.symm hparams.symm)

/-- Methods with the same class, name and proto are one method. -/
theorem InterOk.method_unique (h : v.InterOk) (hi : i < v.header.methodIdsSize)
    (hj : j < v.header.methodIdsSize)
    (heq : methodIdAt v.image (v.methodIdAddr i) = methodIdAt v.image (v.methodIdAddr j)) :
    i = j := by
  have hstrict := strict_of_adjacent (r := fun a b =>
    TripleLess (methodTriple (methodIdAt v.image (v.methodIdAddr a)))
      (methodTriple (methodIdAt v.image (v.methodIdAddr b))))
    (fun _ _ _ => TripleLess.trans) h.methodOrder
  have hirrefl (t : Nat × Nat × Nat) : ¬TripleLess t t := by
    unfold TripleLess
    omega
  rcases Nat.lt_trichotomy i j with hlt | hij | hgt
  · exact absurd (heq ▸ hstrict i j hlt hj) (hirrefl _)
  · exact hij
  · exact absurd (heq ▸ hstrict j i hgt hi) (hirrefl _)

/-- The descriptor of a verified type. -/
theorem InterOk.isDescriptor (h : v.InterOk) {methodHandleCount : Nat}
    (hintra : v.IntraOk methodHandleCount) (hi : i < v.header.typeIdsSize)
    (hbs : v.TextAt (v.descriptorIdxAt i) bs) : IsDescriptor bs := by
  obtain ⟨c, t, htype, hvalid, _⟩ := h.typeValid i hi
  obtain ⟨us, rest, hcontent, hspell⟩ := hbs
  simp only [typeDesc, descriptorIdx_eq hintra.tables hi, bind_ok, hcontent] at htype
  rw [← Except.ok.inj htype] at hvalid
  have hdesc := wp_isValidDescriptor hspell rest
  rw [hvalid] at hdesc
  exact (hdesc rfl).2

/-- The name of a verified method_id. -/
theorem InterOk.isMemberName (h : v.InterOk) (hi : i < v.header.methodIdsSize)
    (hbs : v.TextAt (methodIdAt v.image (v.methodIdAddr i)).nameIdx bs) : IsMemberName bs := by
  obtain ⟨s, hs, hvalid⟩ := (h.methodValid i hi).name
  obtain ⟨us, rest, hcontent, hspell⟩ := hbs
  rw [hcontent] at hs
  rw [← Except.ok.inj hs] at hvalid
  have hname := wp_isValidMemberName hspell rest
  rw [hvalid] at hname
  exact (hname rfl).2

/-- The bytes of type `i`'s descriptor, up to its terminator. -/
def typeBytes (v : Verifier) (i : Nat) : Run (List UInt8) := do
  let s ← v.typeDesc i
  cString s

theorem typeBytes_eq_ok (h : v.TablesOk) (hi : i < v.header.typeIdsSize)
    (hbs : v.TextAt (v.descriptorIdxAt i) bs) : v.typeBytes i = .ok bs := by
  obtain ⟨us, rest, hcontent, hspell⟩ := hbs
  simp only [typeBytes, typeDesc, descriptorIdx_eq h hi, bind_ok, hcontent,
    cString_terminated rest hspell.ne_zero]

theorem IntraOk.textAt {methodHandleCount : Nat} (h : v.IntraOk methodHandleCount)
    (hi : i < v.header.stringIdsSize) : ∃ bs, v.TextAt i bs := by
  obtain ⟨us, s, hs, bs, rest, hspell, rfl⟩ := h.stringAt hi
  exact ⟨bs, us, rest, hs, hspell⟩

end Verifier

section Printed

variable {v : Verifier} {item : DexItem} {methodHandleCount : Nat}

theorem Loaded.typeName_lt (hl : Loaded v item) {i : Nat} {bs : List UInt8}
    (hget : item.typeNames[i]? = some bs) : i < v.header.typeIdsSize := by
  obtain ⟨hlt, _⟩ := List.getElem?_eq_some_iff.mp hget
  rwa [hl.typeCount] at hlt

theorem Loaded.typeName_text (hl : Loaded v item) {i : Nat} {bs : List UInt8}
    (hget : item.typeNames[i]? = some bs) : v.TextAt (v.descriptorIdxAt i) bs :=
  hl.string _ _ (hl.typeName i bs hget)

theorem Loaded.typeName_unique (hl : Loaded v item) (hinter : v.InterOk) {i j : Nat}
    {bs : List UInt8} (hi : item.typeNames[i]? = some bs) (hj : item.typeNames[j]? = some bs) :
    i = j :=
  hinter.type_unique (hl.typeName_lt hi) (hl.typeName_lt hj) (hl.typeName_text hi)
    (hl.typeName_text hj)

/-- The parts are those of method_id `m` in the loaded dex. -/
structure PartsOf (v : Verifier) (item : DexItem) (m : MethodId) (p : MethodParts) : Prop where
  cls : item.typeNames[m.classIdx]? = some p.cls
  name : item.strings[m.nameIdx]? = some p.name
  params : List.Forall₂ (fun type d => item.typeNames[type]? = some d)
    (v.paramTypes (protoIdAt v.image (v.protoIdAddr m.protoIdx))) p.params
  ret : item.typeNames[(protoIdAt v.image (v.protoIdAddr m.protoIdx)).returnTypeIdx]? = some p.ret

theorem vectorAt_eq {α : Type} {l : List α} {i : Nat} (hi : i < l.length) :
    ∃ a, l[i]? = some a ∧ vectorAt l i = .ok a :=
  ⟨l[i], List.getElem?_eq_getElem hi, vectorAt_eq_ok.mpr (List.getElem?_eq_getElem hi)⟩

theorem typeEntries_eq_map (mem : Memory) (p k n : Nat) :
    typeEntries mem p k n = (List.range n).map fun i => u2At mem (p + (k + i) * 2) := by
  induction n generalizing k with
  | zero => rfl
  | succ n ih =>
    rw [typeEntries, ih (k + 1), List.range_succ_eq_map, List.map_cons, List.map_map]
    congr 1
    apply List.map_congr_left
    intro i _
    rw [Function.comp_apply, show k + 1 + i = k + i.succ by omega]

/-- The parameter types of a verified proto have type names. -/
theorem Verifier.ProtoIdOk.paramTypes_lt {pr : ProtoId} (hpr : v.ProtoIdOk pr) {type : Nat}
    (htype : type ∈ v.paramTypes pr) : type < v.header.typeIdsSize := by
  unfold Verifier.paramTypes at htype
  split at htype
  · cases htype
  · rename_i hsome
    rw [typeListAt, typeEntries_eq_map] at htype
    obtain ⟨k, hk, rfl⟩ := List.mem_map.mp htype
    rw [Nat.zero_add]
    exact (hpr.parameters hsome).index k (List.mem_range.mp hk)

section TypeNames

variable (hl : Loaded v item) {i : Nat}

include hl

theorem Loaded.typeNameOrEmpty (hi : i < v.header.typeIdsSize) :
    item.typeNames[i]? = some (item.typeNameOrEmpty i) ∧
      vectorAt item.typeNames i = .ok (item.typeNameOrEmpty i) := by
  rw [← hl.typeCount] at hi
  obtain ⟨bs, hget, hvector⟩ := vectorAt_eq hi
  have hname : item.typeNameOrEmpty i = bs := by
    rw [DexItem.typeNameOrEmpty, List.getD_eq_getElem?_getD, hget, Option.getD_some]
  rw [hname]
  exact ⟨hget, hvector⟩

/-- Both printers of a proto join the names of its parameter types. -/
theorem Loaded.paramDescriptors_eq {pr : ProtoId} (hpr : v.ProtoIdOk pr)
    (hoff : pr.parametersOff < 2 ^ 31) :
    item.paramDescriptors pr.parametersOff =
        .ok ((v.paramTypes pr).map item.typeNameOrEmpty).flatten ∧
      item.boundedParams pr.parametersOff =
        .ok ((v.paramTypes pr).map item.typeNameOrEmpty).flatten := by
  unfold DexItem.paramDescriptors DexItem.boundedParams
  by_cases hsome : pr.parametersOff ≠ 0
  · have hlist := hpr.parameters hsome
    have hspan := hlist.span
    have hend := v.endOfFile_le
    have hptr := @dataPtr_eq _ _ hl.reader _ 4 hoff hsome
    have htypes : v.paramTypes pr = typeListAt v.image (v.offsetToPtr pr.parametersOff) := by
      rw [Verifier.paramTypes, if_neg hsome]
    have hsize : readU4 v.image (v.offsetToPtr pr.parametersOff) =
        .ok (u4At v.image (v.offsetToPtr pr.parametersOff)) := read_of_le (by omega)
    have hentry : ∀ i, i < u4At v.image (v.offsetToPtr pr.parametersOff) →
        readU2 v.image (v.offsetToPtr pr.parametersOff + 4 + i * 2) =
          .ok (u2At v.image (v.offsetToPtr pr.parametersOff + 4 + i * 2)) :=
      fun i hi => read_of_le (by omega)
    have hname : ∀ i, i < u4At v.image (v.offsetToPtr pr.parametersOff) →
        vectorAt item.typeNames (u2At v.image (v.offsetToPtr pr.parametersOff + 4 + i * 2)) =
          .ok (item.typeNameOrEmpty
            (u2At v.image (v.offsetToPtr pr.parametersOff + 4 + i * 2))) :=
      fun i hi => (hl.typeNameOrEmpty (hlist.index i hi)).2
    have hroom : v.offsetToPtr pr.parametersOff + 4 ≤ v.image.length := by omega
    have hmin : min (u4At v.image (v.offsetToPtr pr.parametersOff))
        ((v.image.length - (v.offsetToPtr pr.parametersOff + 4)) / 2) =
        u4At v.image (v.offsetToPtr pr.parametersOff) := by omega
    have hjoined : ((v.paramTypes pr).map item.typeNameOrEmpty) =
        (List.range (u4At v.image (v.offsetToPtr pr.parametersOff))).map fun i =>
          item.typeNameOrEmpty (u2At v.image (v.offsetToPtr pr.parametersOff + 4 + i * 2)) := by
      rw [htypes, typeListAt, typeEntries_eq_map, List.map_map]
      simp only [Nat.zero_add, Function.comp_def]
    simp only [if_pos hsome, hptr, bind_ok, hl.reader.image, hsize, hroom, if_true, hmin, hjoined,
      DexItem.joinTypeNames]
    constructor
    · rw [collect_eq fun i hi => by rw [hentry i hi, bind_ok, hname i hi]]
      rfl
    · rw [collect_eq fun i hi => by rw [hentry i hi, bind_ok]; rfl]
      rfl
  · have htypes : v.paramTypes pr = [] := by
      rw [Verifier.paramTypes, if_pos (by simpa using hsome)]
    simp only [if_neg hsome, htypes]
    exact ⟨rfl, rfl⟩

end TypeNames

/-- The parts of method_id `m`. -/
def partsOf (v : Verifier) (item : DexItem) (m : MethodId) : MethodParts :=
  let pr := protoIdAt v.image (v.protoIdAddr m.protoIdx)
  ⟨item.typeNameOrEmpty m.classIdx, item.strings.getD m.nameIdx [],
    (v.paramTypes pr).map item.typeNameOrEmpty, item.typeNameOrEmpty pr.returnTypeIdx⟩

/-- `proto_ids[i]` of a loaded dex. -/
theorem protoId_eq (hl : Loaded v item) (hintra : v.IntraOk methodHandleCount) {i : Nat}
    (hi : i < v.header.protoIdsSize) :
    item.reader.protoId i = .ok (protoIdAt v.image (v.protoIdAddr i)) := by
  have hsection := @sectionAt_eq _ _ hl.reader _ _ _ _ _ protoIdAt hl.protoTable
      hintra.tables.protos hi
  rw [Reader.protoId, hl.reader.header]
  exact hsection

/-- The printed descriptor of a verified method_id has its parts. -/
theorem describeMethod_eq (hl : Loaded v item) (hintra : v.IntraOk methodHandleCount)
    {m : MethodId} (hm : v.MethodIdOk m) :
    item.describeMethod m = .ok (partsOf v item m).text ∧ PartsOf v item m (partsOf v item m) := by
  have hproto := hintra.proto m.protoIdx hm.proto
  have hcls := hl.typeNameOrEmpty hm.cls
  have hret := hl.typeNameOrEmpty hproto.returnType
  obtain ⟨name, hname, hnameOk⟩ := vectorAt_eq (hl.stringCount ▸ hm.name)
  have hread := protoId_eq hl hintra hm.proto
  have hparams := (hl.paramDescriptors_eq hproto (hl.protoParams _ hm.proto)).1
  have hnameD : item.strings.getD m.nameIdx [] = name := by
    rw [List.getD_eq_getElem?_getD, hname, Option.getD_some]
  constructor
  · simp only [DexItem.describeMethod, DexItem.buildProtoDescriptor, hcls.2, hnameOk, hread,
      hparams, hret.2, bind_ok, partsOf, MethodParts.text, MethodParts.proto, hnameD]
    simp [pure, Except.pure]
  · refine ⟨hcls.1, ?_, ?_, hret.1⟩
    · simp only [partsOf, hnameD, hname]
    · rw [partsOf, List.forall₂_map_right_iff, List.forall₂_same]
      exact fun type htype => (hl.typeNameOrEmpty (hproto.paramTypes_lt htype)).1

/-- `method_ids[m]` of a loaded dex. -/
theorem methodId_eq (hl : Loaded v item) (hintra : v.IntraOk methodHandleCount) {m : Nat}
    (hm : m < v.header.methodIdsSize) :
    item.reader.methodId m = .ok (methodIdAt v.image (v.methodIdAddr m)) := by
  have hsection := @sectionAt_eq _ _ hl.reader _ _ _ _ _ methodIdAt hl.methodTable
      hintra.tables.methods hm
  rw [Reader.methodId, hl.reader.header]
  exact hsection

/-- `field_ids[i]` of a loaded dex. -/
theorem fieldId_eq (hl : Loaded v item) (hintra : v.IntraOk methodHandleCount) {i : Nat}
    (hi : i < v.header.fieldIdsSize) :
    item.reader.fieldId i = .ok (fieldIdAt v.image (v.fieldIdAddr i)) := by
  have hsection := @sectionAt_eq _ _ hl.reader _ _ _ _ _ fieldIdAt hl.fieldTable
      hintra.tables.fields hi
  rw [Reader.fieldId, hl.reader.header]
  exact hsection

theorem buildMethodDescriptor_eq (hl : Loaded v item) (hintra : v.IntraOk methodHandleCount)
    {m : Nat} (hm : m < v.header.methodIdsSize) :
    item.buildMethodDescriptor m =
      .ok (partsOf v item (methodIdAt v.image (v.methodIdAddr m))).text := by
  rw [DexItem.buildMethodDescriptor, hl.reader.header, if_neg (by omega),
    methodId_eq hl hintra hm, bind_ok]
  exact (describeMethod_eq hl hintra (hintra.method m hm)).1

/-- The printed parts of a verified method_id can be told apart. -/
theorem PartsOf.wellFormed (hl : Loaded v item) (hintra : v.IntraOk methodHandleCount)
    (hinter : v.InterOk) {m : Nat} {p : MethodParts} (hm : m < v.header.methodIdsSize)
    (hp : PartsOf v item (methodIdAt v.image (v.methodIdAddr m)) p) : p.WellFormed := by
  have hdesc {i : Nat} {bs : List UInt8} (hget : item.typeNames[i]? = some bs) :
      IsDescriptor bs :=
    hinter.isDescriptor hintra (hl.typeName_lt hget) (hl.typeName_text hget)
  refine ⟨hdesc hp.cls, hinter.isMemberName hm (hl.string _ _ hp.name), fun d hd => ?_,
    hdesc hp.ret⟩
  obtain ⟨i, hi, rfl⟩ := List.getElem_of_mem hd
  have hparam := List.forall₂_iff_get.mp hp.params
  exact hdesc (hparam.2 i (hparam.1 ▸ hi) hi)

/-- Two method_ids with the same printed parts are one. -/
theorem PartsOf.unique (hl : Loaded v item) (hintra : v.IntraOk methodHandleCount)
    (hinter : v.InterOk) {i j : Nat} {p : MethodParts} (hi : i < v.header.methodIdsSize)
    (hj : j < v.header.methodIdsSize)
    (hpi : PartsOf v item (methodIdAt v.image (v.methodIdAddr i)) p)
    (hpj : PartsOf v item (methodIdAt v.image (v.methodIdAddr j)) p) : i = j := by
  have hmi := hintra.method i hi
  have hmj := hintra.method j hj
  apply hinter.method_unique hi hj
  have hcls := hl.typeName_unique hinter hpi.cls hpj.cls
  have hname := hinter.identifier_unique (.method i hi rfl) (.method j hj rfl)
    (hl.string _ _ hpi.name) (hl.string _ _ hpj.name)
  have hret := hl.typeName_unique hinter hpi.ret hpj.ret
  have hleft : Relator.LeftUnique fun type d => item.typeNames[type]? = some d :=
    fun _ _ _ ha hb => hl.typeName_unique hinter ha hb
  have hparams := List.left_unique_forall₂' hleft hpi.params hpj.params
  have hproto := hinter.proto_unique hmi.proto hmj.proto hret hparams
  cases hmethod : methodIdAt v.image (v.methodIdAddr i)
  cases hmethod' : methodIdAt v.image (v.methodIdAddr j)
  rw [hmethod, hmethod'] at hcls hname hproto
  simp only at hcls hname hproto
  rw [hcls, hname, hproto]

end Printed

section Main

variable {image : Memory} {headerOff : Nat} {checkInsns : Bool} {st : VerifyImageState}

/-- Type descriptors are valid and tell the types of a dex apart, and once it
is loaded printed method descriptors tell its method_ids apart. -/
structure UniqueDescriptors (image : Memory) (headerOff : Nat) (v : Verifier) : Prop where
  valid : ∀ i, i < v.header.typeIdsSize → ∃ s bs, v.typeDesc i = .ok s ∧
    isValidDescriptor s = .ok true ∧ v.typeBytes i = .ok bs
  type : ∀ i j bs, i < v.header.typeIdsSize → j < v.header.typeIdsSize →
    v.typeBytes i = .ok bs → v.typeBytes j = .ok bs → i = j
  typeNames : ∀ item, loadDexItem image headerOff = .ok item →
    ∀ i bs, item.typeNames[i]? = some bs → v.typeBytes i = .ok bs
  method : ∀ item, loadDexItem image headerOff = .ok item → ∀ i j d,
    i < v.header.methodIdsSize → j < v.header.methodIdsSize →
      item.buildMethodDescriptor i = .ok d → item.buildMethodDescriptor j = .ok d → i = j

/-- Either pass of `VerifyDex` accepts only dexes with unique descriptors. -/
theorem descriptors_unique (hok : (verifyDex image checkInsns headerOff st).1.ok = true) :
    ∃ v, openVerifier image headerOff checkInsns = .ok v ∧
      UniqueDescriptors image headerOff v := by
  obtain ⟨v, methodHandleCount, deviations, haccepted⟩ := accepted_of_verifyDex hok
  have hintra := haccepted.intraOk
  have hinter := haccepted.interOk
  have hbytes {i : Nat} (hi : i < v.header.typeIdsSize) :
      ∃ bs, v.TextAt (v.descriptorIdxAt i) bs ∧ v.typeBytes i = .ok bs := by
    obtain ⟨bs, hbs⟩ := hintra.textAt (hintra.type i hi)
    exact ⟨bs, hbs, Verifier.typeBytes_eq_ok hintra.tables hi hbs⟩
  refine ⟨v, haccepted.opened, fun i hi => ?_, fun i j bs hi hj hbi hbj => ?_,
    fun item hload i bs hget => ?_, fun item hload i j d hi hj hdi hdj => ?_⟩
  · obtain ⟨c, t, htype, hvalid, _⟩ := hinter.typeValid i hi
    obtain ⟨bs, _, hbs⟩ := hbytes hi
    exact ⟨_, bs, htype, hvalid, hbs⟩
  · obtain ⟨cs, htext, hcs⟩ := hbytes hi
    obtain ⟨ds, htext', hds⟩ := hbytes hj
    obtain rfl := Except.ok.inj (hcs.symm.trans hbi)
    obtain rfl := Except.ok.inj (hds.symm.trans hbj)
    exact hinter.type_unique hi hj htext htext'
  · have hl := loaded_of_loadDexItem haccepted hload
    exact Verifier.typeBytes_eq_ok hintra.tables (hl.typeName_lt hget) (hl.typeName_text hget)
  · have hl := loaded_of_loadDexItem haccepted hload
    rw [buildMethodDescriptor_eq hl hintra hi] at hdi
    rw [buildMethodDescriptor_eq hl hintra hj] at hdj
    have hpi := (describeMethod_eq hl hintra (hintra.method i hi)).2
    have hpj := (describeMethod_eq hl hintra (hintra.method j hj)).2
    have htext := (Except.ok.inj hdi).trans (Except.ok.inj hdj).symm
    have hparts := MethodParts.text_injective (hpi.wellFormed hl hintra hinter hi)
      (hpj.wellFormed hl hintra hinter hj) htext
    exact PartsOf.unique hl hintra hinter hi hj (hparts ▸ hpi) hpj

/-- One class with the methods `a()V` and `a b()V`. -/
def spacedDex : Memory := [
  100, 101, 120, 10, 48, 51, 53, 0, 0, 0, 0, 0, 0, 0, 0, 0, 0, 0, 0, 0, 0, 0, 0, 0,
  0, 0, 0, 0, 0, 0, 0, 0, 56, 1, 0, 0, 112, 0, 0, 0, 120, 86, 52, 18, 0, 0, 0, 0,
  0, 0, 0, 0, 224, 0, 0, 0, 4, 0, 0, 0, 112, 0, 0, 0, 2, 0, 0, 0, 128, 0, 0, 0,
  1, 0, 0, 0, 136, 0, 0, 0, 0, 0, 0, 0, 0, 0, 0, 0, 2, 0, 0, 0, 148, 0, 0, 0,
  1, 0, 0, 0, 164, 0, 0, 0, 0, 0, 0, 0, 0, 0, 0, 0, 206, 0, 0, 0, 211, 0, 0, 0,
  214, 0, 0, 0, 217, 0, 0, 0, 0, 0, 0, 0, 1, 0, 0, 0, 1, 0, 0, 0, 1, 0, 0, 0,
  0, 0, 0, 0, 0, 0, 0, 0, 2, 0, 0, 0, 0, 0, 0, 0, 3, 0, 0, 0, 0, 0, 0, 0,
  1, 0, 0, 0, 255, 255, 255, 255, 0, 0, 0, 0, 255, 255, 255, 255, 0, 0, 0, 0, 196, 0, 0, 0,
  0, 0, 0, 0, 0, 0, 2, 0, 0, 1, 0, 1, 1, 0, 3, 76, 65, 59, 0, 1, 86, 0, 1, 97,
  0, 3, 97, 32, 98, 0, 0, 0, 7, 0, 0, 0, 0, 0, 0, 0, 1, 0, 0, 0, 0, 0, 0, 0,
  1, 0, 0, 0, 4, 0, 0, 0, 112, 0, 0, 0, 2, 0, 0, 0, 2, 0, 0, 0, 128, 0, 0, 0,
  3, 0, 0, 0, 1, 0, 0, 0, 136, 0, 0, 0, 5, 0, 0, 0, 2, 0, 0, 0, 148, 0, 0, 0,
  6, 0, 0, 0, 1, 0, 0, 0, 164, 0, 0, 0, 0, 16, 0, 0, 1, 0, 0, 0, 224, 0, 0, 0]

set_option maxRecDepth 20000 in
theorem descriptors_unique_spacedDex :
    (do let item ← loadDexItem spacedDex 0; item.buildMethodDescriptor 1) =
      .ok [0x4c, 0x41, 0x3b, 0x2d, 0x3e, 0x61, 0x20, 0x62, 0x28, 0x29, 0x56] ∧
    ∃ v, openVerifier spacedDex 0 true = .ok v ∧ UniqueDescriptors spacedDex 0 v :=
  ⟨by decide, @descriptors_unique _ _ _ {} (by decide)⟩

end Main

end Dexllm
