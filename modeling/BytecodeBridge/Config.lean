/-
The run-time support that lowered methods link against.

Everything the lowering names by itself, and not because the source
named it, is a field of `Config`: the root classes, the helper that maps
foreign exceptions, the sentinel that carries a leave through a finally
clause, and the class names that are special in catch clauses.
-/

namespace BytecodeBridge

/-- A method named by class, name and descriptor. -/
structure MethodSpec where
  owner : String
  name : String
  descriptor : String
deriving DecidableEq, Repr, Inhabited

/-- The class whose instances carry the destination of a leave through a
finally clause. -/
structure SentinelSpec where
  owner : String
  /-- static factory that takes the destination's index -/
  factory : String
  /-- instance method that gives the index back -/
  accessor : String
deriving DecidableEq, Repr, Inhabited

/-- Names of the run-time support, and the classes that are special in catch
clauses. -/
structure Config where
  objectClass : String := "java/lang/Object"
  throwableClass : String := "java/lang/Throwable"
  stringClass : String := "java/lang/String"
  /-- the class of by-reference boxes -/
  referenceCellClass : String := "system/Reference"
  /-- catch types that match every exception without a test -/
  universalExceptions : List String := ["system/Exception", "java/lang/Throwable"]
  /-- walks over supertypes stop here -/
  exceptionRoot : Option String := some "system/Exception"
  /-- called once per region before any catch test -/
  exceptionMapper : MethodSpec :=
    ⟨"system/Util", "TranslateException", "(Ljava/lang/Throwable;)Ljava/lang/Throwable;"⟩
  leaveSentinel : SentinelSpec := ⟨"system/LeaveTarget", "create", "index"⟩
  /-- gives null when an exception does not match the named generic parameter -/
  genericCatch : MethodSpec :=
    ⟨"system/GenericUtil", "TryCast", "(Ljava/lang/Object;Ljava/lang/String;)Ljava/lang/Object;"⟩
  /-- instance method of value classes that returns a detached copy -/
  valueClone : String := "system-ValueMethod-Clone"
  /-- catch types that the target machine raises under another name -/
  hostExceptionAliases : List String :=
    ["system/ArithmeticException", "system/NullReferenceException",
     "system/IndexOutOfRangeException", "system/InvalidCastException",
     "system/StackOverflowException", "system/OutOfMemoryException"]
deriving DecidableEq, Repr, Inhabited

namespace Config

/-- The descriptor of the sentinel's factory. -/
def sentinelFactoryDescriptor (c : Config) : String :=
  "(I)L" ++ c.leaveSentinel.owner ++ ";"

/-- The sentinel's factory. -/
def sentinelFactory (c : Config) : MethodSpec :=
  ⟨c.leaveSentinel.owner, c.leaveSentinel.factory, c.sentinelFactoryDescriptor⟩

/-- Whether a clause that catches the class matches every exception. -/
def isUniversalException (c : Config) (name : String) : Bool :=
  name == c.throwableClass || c.universalExceptions.contains name

/-- Whether the target machine raises the class under another name. -/
def isHostAlias (c : Config) (name : String) : Bool :=
  c.hostExceptionAliases.contains name

end Config

end BytecodeBridge
