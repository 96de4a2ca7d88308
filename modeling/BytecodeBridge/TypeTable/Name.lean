/-
The names types have in class files.

A descriptor spells a type out in the signature of a field or a method;
a class name is what a class constant holds. A generic parameter and the
null type stand for the universal object type in both. A box that is
passed by value goes by the name of its wrapper class or of what it
boxes, a box passed by reference by the name of the cell class.
-/
import BytecodeBridge.TypeTable

namespace BytecodeBridge.TypeTable

/-- The descriptor of a class. -/
def classDescriptor (name : String) : String :=
  "L" ++ name ++ ";"

/-- The descriptor of a type. -/
def descriptor (T : TypeTable) : Ty → Except Cause String
  | .prim k => return k.descriptor
  | .ref name | .value name => return classDescriptor name
  | .array element rank =>
    return String.join (List.replicate rank "[") ++ (← T.descriptor element)
  | .generic _ _ | .null => return classDescriptor T.objectClass
  | .boxed _ true => return classDescriptor T.cellClass
  | .boxed (.prim k) false => return classDescriptor k.wrapper
  | .boxed content false => T.descriptor content
  | t@.uninitThis | t@.top => throw (.internal (.noDescriptor t))

/-- The internal name by which a class constant refers to a type. -/
def className (T : TypeTable) : Ty → Except Cause String
  | .ref name | .value name => return name
  | t@(.array _ _) => T.descriptor t
  | .generic _ _ | .null => return T.objectClass
  | .boxed _ true => return T.cellClass
  | .boxed (.prim k) false => return k.wrapper
  | .boxed content false => T.className content
  | t@(.prim _) | t@.uninitThis | t@.top => throw (.internal (.notClass t))

/-- The descriptor of a method. -/
def methodDescriptor (T : TypeTable) (params : List Ty) (returns : Option Ty) :
    Except Cause String := do
  let args ← params.mapM T.descriptor
  let result ← match returns with
    | some r => T.descriptor r
    | none => pure "V"
  return "(" ++ String.join args ++ ")" ++ result

end BytecodeBridge.TypeTable
