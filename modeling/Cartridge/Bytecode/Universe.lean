import Cartridge.Bytecode.Assembly
import Cartridge.Error

/-!
# The universe of a program

The assemblies that a program can refer to, the user program first. Of several types of one name the
first counts. Pointer marks on a type name are ignored when the type is looked up.
-/

namespace Cartridge

/-- The known assemblies; the first one is the user program. -/
structure Universe where
  assemblies : List Assembly
deriving DecidableEq, Repr, Inhabited

namespace Universe

variable (u : Universe)

/-- The user program. -/
def user : Assembly := u.assemblies.headD ⟨"", [], none⟩

/-- Every type in order of declaration. -/
def types : List TypeDecl := u.assemblies.flatMap (·.types)

/-- The declaration of the type, or of the type that it points to. -/
def findType (t : TypeName) : Except Error TypeDecl :=
  let element := t.elementType
  match u.types.find? fun d => d.name == element with
  | some d => .ok d
  | none => .error (.missingType element.text)

/-- The declaration of a method. -/
def findMethod (m : Member) : Except Error MethodDecl :=
  match (u.findType m.declaringType).toOption.bind (·.method? m.name) with
  | some d => .ok d
  | none => .error (.missingMethod m.fullName)

/-- The declaration of a field. -/
def findField (f : Member) : Except Error FieldDecl :=
  match (u.findType f.declaringType).toOption.bind (·.field? f.name) with
  | some d => .ok d
  | none => .error (.missingField f.fullName)

/-- The entry point of the user program. -/
def entryPoint : Except Error Member :=
  match u.user.entryPoint with
  | some m => .ok m
  | none => .error (.missingEntryPoint u.user.name)

/-- The static initializers of the user program, in order of its types. -/
def staticInitializers : List Member :=
  (u.user.types.filter fun t => (t.method? Member.initializerName).isSome).map
    (·.member Member.initializerName)

/-- Every method that an instruction of a declared body names. -/
def callees : List Member :=
  u.types.flatMap fun t => t.methods.flatMap fun m => m.body.filterMap (·.callee?)

end Universe

end Cartridge
