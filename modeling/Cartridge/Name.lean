/-!
# Names of types and members

A type is known by its full name; a trailing `*` or `&` marks a pointer to it. A member (a method or
a field) is known by its declaring type and its own name, written `Namespace.Type::Member`.
`Member.parse?` reads that form and `Member.fullName` writes it.
-/

namespace Cartridge

/-- A type by its full name, pointer marks included. -/
structure TypeName where
  text : String
deriving DecidableEq, Hashable, Repr, Inhabited

namespace TypeName

/-- The marks of pointer types. -/
def isPointerMark (c : Char) : Bool := c == '*' || c == '&'

/-- The type of bytes. -/
def byte : TypeName := ⟨"System.Byte"⟩

/-- The type of truth values. -/
def boolean : TypeName := ⟨"System.Boolean"⟩

/-- The result type of a method without a result. -/
def void : TypeName := ⟨"System.Void"⟩

/-- The type of texts, which only inline assembly takes. -/
def string : TypeName := ⟨"System.String"⟩

/-- The type of an empty slot of the operand stack. -/
def nothing : TypeName := ⟨"VCSFramework.Nothing"⟩

variable (t : TypeName)

/-- Whether the name ends in a pointer mark. -/
def isPointer : Bool :=
  match t.text.toList.getLast? with
  | some c => isPointerMark c
  | none => false

/-- Whether the name is that of `void`. -/
def isVoid : Bool := t == void

/-- The name without the pointer marks at its end. -/
def elementType : TypeName :=
  ⟨String.ofList (t.text.toList.reverse.dropWhile isPointerMark).reverse⟩

/-- The type of pointers to `t`. -/
def pointerTo : TypeName := ⟨t.text ++ "*"⟩

/-- Whether the name without pointer marks has a dot. -/
def isQualified : Bool := t.elementType.text.toList.contains '.'

/-- The part before the last dot, empty if there is none. -/
def qualifier : String :=
  if t.isQualified
  then String.ofList ((t.elementType.text.toList.reverse.dropWhile (· != '.')).drop 1).reverse
  else ""

/-- The part after the last dot. -/
def simpleName : String :=
  String.ofList (t.elementType.text.toList.reverse.takeWhile (· != '.')).reverse

variable {t}

theorem elementType_of_not_isPointer (h : t.isPointer = false) : t.elementType = t := by
  have hdrop : t.text.toList.reverse.dropWhile isPointerMark = t.text.toList.reverse := by
    rw [isPointer, ← List.head?_reverse] at h
    cases hrev : t.text.toList.reverse with
    | nil => rfl
    | cons c cs =>
      rw [hrev] at h
      exact List.dropWhile_cons_of_neg (by simpa using h)
  rw [elementType, hdrop, List.reverse_reverse, String.ofList_toList]

theorem isPointer_elementType (t : TypeName) : t.elementType.isPointer = false := by
  have hfirst := List.head?_dropWhile_not isPointerMark t.text.toList.reverse
  rw [isPointer, elementType, String.toList_ofList, List.getLast?_reverse]
  cases hc : (t.text.toList.reverse.dropWhile isPointerMark).head? with
  | none => rfl
  | some c =>
    rw [hc] at hfirst
    exact hfirst

theorem elementType_elementType (t : TypeName) : t.elementType.elementType = t.elementType :=
  elementType_of_not_isPointer (isPointer_elementType t)

end TypeName

/-- A method or a field. -/
structure Member where
  /-- The type that declares it. -/
  declaringType : TypeName
  name : String
deriving DecidableEq, Hashable, Repr, Inhabited

namespace Member

/-- What stands before and after the first double colon. -/
def splitColons? : List Char → Option (List Char × List Char)
  | ':' :: ':' :: cs => some ([], cs)
  | c :: cs => (splitColons? cs).map fun p => (c :: p.1, p.2)
  | [] => none

/-- Reads `Namespace.Type::Member`; neither part may be empty. -/
def parse? (text : String) : Option Member :=
  match splitColons? text.toList with
  | some (owner, name) =>
    if owner.isEmpty || name.isEmpty then none
    else some ⟨⟨String.ofList owner⟩, String.ofList name⟩
  | none => none

/-- What is wrong with a text that `parse?` refuses. -/
def parseFault (text : String) : String :=
  "expected 'Namespace.Type::Member', got '" ++ text ++ "'"

variable (m : Member)

/-- The written form. -/
def fullName : String := m.declaringType.text ++ "::" ++ m.name

/-- The name that static initializers have. -/
def initializerName : String := ".cctor"

/-- Whether the member is a static initializer. -/
def isStaticInitializer : Bool := m.name == initializerName

end Member

end Cartridge
