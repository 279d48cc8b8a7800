/-!
# Opcodes

The operations of the stack machine, with their mnemonics. Operations that the target cannot express
are listed too, so that a program that uses one is refused by name and not as malformed.
-/

namespace Cartridge

/-- An operation of the stack machine. -/
inductive Opcode where
  | nop | ldcM1 | ldc0 | ldc1 | ldc2 | ldc3 | ldc4 | ldc5 | ldc6 | ldc7 | ldc8 | ldcShort | ldc
  | ldstr | ldloc0 | ldloc1 | ldloc2 | ldloc3 | ldlocShort | ldloc | stloc0 | stloc1 | stloc2
  | stloc3 | stlocShort | stloc | ldlocaShort | ldloca | ldarg0 | ldarg1 | ldarg2 | ldarg3
  | ldargShort | ldarg | ldsfld | stsfld | ldsflda | ldfld | stfld | ldflda | ldindU1 | stindI1
  | ldobj | initobj | add | sub | or | ceq | dup | pop | convU1 | convU | convI | br | brShort
  | brtrue | brtrueShort | brfalse | brfalseShort | blt | bltShort | call | ret | mul | div | rem
  | and | xor | shl | shr | neg | not | cgt | clt | beq | beqShort | bneUn | bneUnShort | bgt
  | bgtShort | ble | bleShort | bge | bgeShort | switch | starg | stargShort | ldnull | newobj
  | newarr | callvirt | ldelem | stelem | box | throw | convI4
deriving DecidableEq, Repr, Inhabited

namespace Opcode

/-- Every opcode, in the order of the machine's listing. -/
def all : List Opcode := [
  .nop, .ldcM1, .ldc0, .ldc1, .ldc2, .ldc3, .ldc4, .ldc5, .ldc6, .ldc7, .ldc8, .ldcShort, .ldc,
  .ldstr, .ldloc0, .ldloc1, .ldloc2, .ldloc3, .ldlocShort, .ldloc, .stloc0, .stloc1, .stloc2,
  .stloc3, .stlocShort, .stloc, .ldlocaShort, .ldloca, .ldarg0, .ldarg1, .ldarg2, .ldarg3,
  .ldargShort, .ldarg, .ldsfld, .stsfld, .ldsflda, .ldfld, .stfld, .ldflda, .ldindU1, .stindI1,
  .ldobj, .initobj, .add, .sub, .or, .ceq, .dup, .pop, .convU1, .convU, .convI, .br, .brShort,
  .brtrue, .brtrueShort, .brfalse, .brfalseShort, .blt, .bltShort, .call, .ret, .mul, .div, .rem,
  .and, .xor, .shl, .shr, .neg, .not, .cgt, .clt, .beq, .beqShort, .bneUn, .bneUnShort, .bgt,
  .bgtShort, .ble, .bleShort, .bge, .bgeShort, .switch, .starg, .stargShort, .ldnull, .newobj,
  .newarr, .callvirt, .ldelem, .stelem, .box, .throw, .convI4]

/-- The mnemonic of an opcode. -/
def mnemonic : Opcode → String
  | .nop => "nop"
  | .ldcM1 => "ldc.i4.m1"
  | .ldc0 => "ldc.i4.0"
  | .ldc1 => "ldc.i4.1"
  | .ldc2 => "ldc.i4.2"
  | .ldc3 => "ldc.i4.3"
  | .ldc4 => "ldc.i4.4"
  | .ldc5 => "ldc.i4.5"
  | .ldc6 => "ldc.i4.6"
  | .ldc7 => "ldc.i4.7"
  | .ldc8 => "ldc.i4.8"
  | .ldcShort => "ldc.i4.s"
  | .ldc => "ldc.i4"
  | .ldstr => "ldstr"
  | .ldloc0 => "ldloc.0"
  | .ldloc1 => "ldloc.1"
  | .ldloc2 => "ldloc.2"
  | .ldloc3 => "ldloc.3"
  | .ldlocShort => "ldloc.s"
  | .ldloc => "ldloc"
  | .stloc0 => "stloc.0"
  | .stloc1 => "stloc.1"
  | .stloc2 => "stloc.2"
  | .stloc3 => "stloc.3"
  | .stlocShort => "stloc.s"
  | .stloc => "stloc"
  | .ldlocaShort => "ldloca.s"
  | .ldloca => "ldloca"
  | .ldarg0 => "ldarg.0"
  | .ldarg1 => "ldarg.1"
  | .ldarg2 => "ldarg.2"
  | .ldarg3 => "ldarg.3"
  | .ldargShort => "ldarg.s"
  | .ldarg => "ldarg"
  | .ldsfld => "ldsfld"
  | .stsfld => "stsfld"
  | .ldsflda => "ldsflda"
  | .ldfld => "ldfld"
  | .stfld => "stfld"
  | .ldflda => "ldflda"
  | .ldindU1 => "ldind.u1"
  | .stindI1 => "stind.i1"
  | .ldobj => "ldobj"
  | .initobj => "initobj"
  | .add => "add"
  | .sub => "sub"
  | .or => "or"
  | .ceq => "ceq"
  | .dup => "dup"
  | .pop => "pop"
  | .convU1 => "conv.u1"
  | .convU => "conv.u"
  | .convI => "conv.i"
  | .br => "br"
  | .brShort => "br.s"
  | .brtrue => "brtrue"
  | .brtrueShort => "brtrue.s"
  | .brfalse => "brfalse"
  | .brfalseShort => "brfalse.s"
  | .blt => "blt"
  | .bltShort => "blt.s"
  | .call => "call"
  | .ret => "ret"
  | .mul => "mul"
  | .div => "div"
  | .rem => "rem"
  | .and => "and"
  | .xor => "xor"
  | .shl => "shl"
  | .shr => "shr"
  | .neg => "neg"
  | .not => "not"
  | .cgt => "cgt"
  | .clt => "clt"
  | .beq => "beq"
  | .beqShort => "beq.s"
  | .bneUn => "bne.un"
  | .bneUnShort => "bne.un.s"
  | .bgt => "bgt"
  | .bgtShort => "bgt.s"
  | .ble => "ble"
  | .bleShort => "ble.s"
  | .bge => "bge"
  | .bgeShort => "bge.s"
  | .switch => "switch"
  | .starg => "starg"
  | .stargShort => "starg.s"
  | .ldnull => "ldnull"
  | .newobj => "newobj"
  | .newarr => "newarr"
  | .callvirt => "callvirt"
  | .ldelem => "ldelem"
  | .stelem => "stelem"
  | .box => "box"
  | .throw => "throw"
  | .convI4 => "conv.i4"

/-- The opcode with a given mnemonic. -/
def ofMnemonic? (text : String) : Option Opcode := all.find? fun op => op.mnemonic == text

/-- What is wrong with a text that is no mnemonic. -/
def mnemonicFault (text : String) : String := "unknown opcode '" ++ text ++ "'"

/-- Whether the opcode may pass control to the target in its operand. -/
def isBranch : Opcode → Bool
  | .br | .brShort | .brtrue | .brtrueShort | .brfalse | .brfalseShort | .blt | .bltShort | .beq
  | .beqShort | .bneUn | .bneUnShort | .bgt | .bgtShort | .ble | .bleShort | .bge
  | .bgeShort => true
  | _ => false

/-- The constant that an opcode loads by itself. -/
def impliedConstant? : Opcode → Option Int
  | .ldcM1 => some (-1)
  | .ldc0 => some 0
  | .ldc1 => some 1
  | .ldc2 => some 2
  | .ldc3 => some 3
  | .ldc4 => some 4
  | .ldc5 => some 5
  | .ldc6 => some 6
  | .ldc7 => some 7
  | .ldc8 => some 8
  | _ => none

/-- The local or parameter slot that an opcode names by itself. -/
def impliedSlot? : Opcode → Option UInt16
  | .ldloc0 | .stloc0 | .ldarg0 => some 0
  | .ldloc1 | .stloc1 | .ldarg1 => some 1
  | .ldloc2 | .stloc2 | .ldarg2 => some 2
  | .ldloc3 | .stloc3 | .ldarg3 => some 3
  | _ => none

end Opcode

end Cartridge
