import Cartridge.Bytecode.Assembly

/-!
# The framework

The assembly that every program can refer to: the built-in types, one accessor per hardware
register, inline assembly, and the accessors of ROM data.
-/

namespace Cartridge.Framework

/-- Registers that are written with a value, and their symbols. -/
def writeRegisters : List (String × String) :=
  [("AudC0", "AUDC0"), ("AudC1", "AUDC1"), ("AudF0", "AUDF0"), ("AudF1", "AUDF1"),
   ("AudV0", "AUDV0"), ("AudV1", "AUDV1"), ("ColuBk", "COLUBK"), ("ColuP0", "COLUP0"),
   ("ColuP1", "COLUP1"), ("ColuPf", "COLUPF"), ("CtrlPf", "CTRLPF"), ("EnaM0", "ENAM0"),
   ("EnaM1", "ENAM1"), ("EnaBl", "ENABL"), ("GrP0", "GRP0"), ("GrP1", "GRP1"), ("HMBl", "HMBL"),
   ("HMP0", "HMP0"), ("HMP1", "HMP1"), ("HMM0", "HMM0"), ("HMM1", "HMM1"), ("NuSiz0", "NUSIZ0"),
   ("NuSiz1", "NUSIZ1"), ("Pf0", "PF0"), ("Pf1", "PF1"), ("Pf2", "PF2"), ("RefP0", "REFP0"),
   ("RefP1", "REFP1"), ("ResMP0", "RESMP0"), ("ResMP1", "RESMP1"), ("VBlank", "VBLANK"),
   ("VDelP0", "VDELP0"), ("VDelP1", "VDELP1"), ("VDelBl", "VDELBL"), ("VSync", "VSYNC"),
   ("Tim64T", "TIM64T")]

/-- Registers that are written without a value, and their symbols. -/
def strobes : List (String × String) :=
  [("CxClr", "CXCLR"), ("HmClr", "HMCLR"), ("HMove", "HMOVE"), ("ResBl", "RESBL"),
   ("ResM0", "RESM0"), ("ResM1", "RESM1"), ("ResP0", "RESP0"), ("ResP1", "RESP1"),
   ("RSync", "RSYNC"), ("WSync", "WSYNC")]

/-- Registers that are read, and their symbols. -/
def readRegisters : List (String × String) :=
  [("CxM0P", "CXM0P"), ("CxM1P", "CXM1P"), ("CxP0FB", "CXP0FB"), ("CxP1FB", "CXP1FB"),
   ("CxM0FB", "CXM0FB"), ("CxM1FB", "CXM1FB"), ("CxBlPf", "CXBLPF"), ("CxPPMM", "CXPPMM"),
   ("InTim", "INTIM"), ("TimInt", "TIMINT")]

/-- A built-in type of a fixed size. -/
def builtIn (name : String) (size : UInt16) : TypeDecl :=
  { name := ⟨name⟩, primitiveSize := some size }

/-- A method with one byte parameter. -/
def setter (name : String) (marker : CallMarker) : MethodDecl :=
  { name := "set_" ++ name, parameters := [⟨"value", .byte⟩], marker := some marker }

/-- The type with the register accessors. -/
def registers : TypeDecl where
  name := ⟨"VCSFramework.Registers"⟩
  methods :=
    (Register.all.map fun r => setter r.name (.loadToRegister r)) ++
    (writeRegisters.map fun r => setter r.1 (.storeToSymbol r.2)) ++
    (strobes.map fun r => { name := r.1, marker := some (.storeToSymbol r.2) }) ++
    (readRegisters.map fun r =>
      { name := "get_" ++ r.1, returnType := .byte, marker := some (.loadFromSymbol r.2) })

/-- The type with inline assembly. -/
def assemblyUtilities : TypeDecl where
  name := ⟨"VCSFramework.AssemblyUtilities"⟩
  methods :=
    [{ name := "InlineAssembly", parameters := [⟨"assembly", .string⟩],
       marker := some (.replaceWithEntry .inlineAssembly) }]

/-- The type of ROM data. -/
def romData : TypeDecl where
  name := ⟨"VCSFramework.RomData"⟩
  methods :=
    [{ name := "get_Length", returnType := .byte,
       marker := some (.replaceWithEntry .romDataLength) },
     { name := "get_Stride", returnType := .byte,
       marker := some (.replaceWithEntry .romDataStride) },
     { name := "get_Item", parameters := [⟨"index", .byte⟩], returnType := TypeName.byte.pointerTo,
       marker := some (.replaceWithEntry .romDataGetter) }]

/-- The framework assembly. -/
def assembly : Assembly where
  name := "VCSFramework"
  types :=
    [builtIn "System.Byte" 1, builtIn "System.SByte" 1, builtIn "System.Boolean" 1,
     builtIn "System.Void" 0, builtIn "System.String" 0, builtIn "VCSFramework.Nothing" 0,
     registers, assemblyUtilities, romData]

end Cartridge.Framework
