import Dexllm.MethodLookup
import Dexllm.StaticInit

/-!
What a session knows of a class, and its partial answer to whether one type is
a subtype of another: the declared superclasses and interfaces are climbed with
an explicit stack until one matches or the loaded dexes are left.
-/

namespace Dexllm

open Guarded Bytes

/-- `ClassInfo`. -/
structure ClassInfo where
  dexId : Nat
  typeIdx : Nat
  accessFlags : Nat
  superclass : Text
  interfaces : List Text
  fieldIds : List Nat
  fieldInitTexts : List Text
  fieldInitComments : List Text

/-- `"Ljava/lang/Object;"`. -/
def javaLangObject : Text := ascii "Ljava/lang/Object;"

namespace DexItem

variable (item : DexItem)

/-- `type_def_idx`, which `InitBaseCache` fills: 0 for a type the dex does not
define. -/
def typeDefIdxs : Run (List Nat) :=
  loop item.reader.header.classDefsSize (List.replicate item.reader.header.typeIdsSize 0)
    fun c table => do
      let cd ← item.reader.classDef c
      let _ ← vectorAt table cd.classIdx
      pure (table.set cd.classIdx c)

/-- `GetTypeDefIdx`. -/
def getTypeDefIdx (typeIdx : Nat) : Run Nat := do
  let table ← item.typeDefIdxs
  vectorAt table typeIdx

/-- The superclass of a class_def, empty for none. -/
def superclassName (cd : ClassDef) : Run Text :=
  if cd.superclassIdx ≠ kNoIndex then vectorAt item.typeNames cd.superclassIdx else pure []

/-- The interfaces of a class_def: no more than the image has room for. -/
def interfaceNames (off : Nat) : Run (List Text) :=
  if off ≠ 0 then do
    let p ← item.reader.dataPtr off 4
    let size ← readU4 item.reader.image p
    let imageEnd := item.reader.image.length
    let room := if p + 4 ≤ imageEnd then (imageEnd - (p + 4)) / 2 else 0
    collect (min size room) fun i => do
      let typeIdx ← readU2 item.reader.image (p + 4 + i * 2)
      vectorAt item.typeNames typeIdx
  else pure []

/-- The initializer of a field, when it is an expression or when it is not. -/
def initText (init : StaticInit) (expression : Bool) (field : Nat) : Text :=
  match init.initMap.lookup field with
  | some found => if found.value.expression = expression then found.value.text else []
  | none => []

/-- The `ClassInfo` of a class_def. -/
def classInfo (texts : FloatTexts) (dexId typeIdx : Nat) (cd : ClassDef) : Run ClassInfo := do
  let superclass ← item.superclassName cd
  let interfaces ← item.interfaceNames cd.interfacesOff
  let fields ← parseClassFieldOrder item.reader cd
  let fieldIds := fields.staticIds ++ fields.instanceIds
  let init ← decodeStaticInitMap texts item cd fields.staticIds
  pure ⟨dexId, typeIdx, cd.accessFlags, superclass, interfaces, fieldIds,
    fieldIds.map (initText init true), fieldIds.map (initText init false)⟩

end DexItem

namespace DexKit

variable (texts : FloatTexts) (kit : DexKit)

/-- `GetClassInfo`. -/
def getClassInfo (classDescriptor : Text) : Run (Option ClassInfo) :=
  match kit.getClassDeclaredPair classDescriptor with
  | none => pure none
  | some (dexId, typeIdx) => do
    let item ← vectorAt kit.dexItems dexId
    let classDefIdx ← item.getTypeDefIdx typeIdx
    if classDefIdx = kNoIndex then pure none
    else if item.reader.header.classDefsSize ≤ classDefIdx then pure none
    else do
      let cd ← item.reader.classDef classDefIdx
      let info ← item.classInfo texts (dexId % 2 ^ 16) typeIdx cd
      pure (some info)

/-- The interface loop of `IsAssignable`: the stack, its back first, or none
when one of them is `super`. -/
def pushInterfaces (super : Text) : (interfaces stack : List Text) → Option (List Text)
  | [], stack => some stack
  | iface :: interfaces, stack =>
    if iface = super then none else pushInterfaces super interfaces (iface :: stack)

/-- What a class adds to the stack, or none when it leads to `super`. -/
def pushSupertypes (super : Text) (info : ClassInfo) (stack : List Text) : Option (List Text) :=
  if info.superclass = [] then pushInterfaces super info.interfaces stack
  else if info.superclass = super then none
  else pushInterfaces super info.interfaces (info.superclass :: stack)

/-- The loop of `IsAssignable` for at most `fuel` rounds: no answer when they do
not suffice. -/
def climb (super : Text) : (fuel : Nat) → (seen stack : List Text) → Run (Option Bool)
  | 0, _, _ => pure none
  | _ + 1, _, [] => pure (some false)
  | fuel + 1, seen, cur :: stack =>
    if cur ∈ seen then climb super fuel seen stack
    else do
      let info ← kit.getClassInfo texts cur
      match info with
      | none => climb super fuel (cur :: seen) stack
      | some info =>
        match pushSupertypes super info stack with
        | none => pure (some true)
        | some stack => climb super fuel (cur :: seen) stack

/-- `IsAssignable`. -/
def isAssignable (fuel : Nat) (sub super : Text) : Run (Option Bool) :=
  if sub = super then pure (some true)
  else if sub = [] ∨ super = [] then pure (some false)
  else if ¬(sub.head? = some 0x4c ∨ sub.head? = some 0x5b) then pure (some false)
  else if super = javaLangObject then pure (some true)
  else if sub.head? = some 0x5b then pure (some false)
  else kit.climb texts super fuel [] [sub]

end DexKit

end Dexllm
