import Cartridge.Layout
import Cartridge.Text.Blank
import Cartridge.Vil.Entry

/-!
# Peephole rules

A rule looks at a window of consecutive entries and may replace it. Mandatory rules consume the
placeholders; optional rules fuse macros into cheaper ones. A replacement weighs less than its
window (`Rule.weight_of_replacement`), so that replacing comes to an end.
-/

namespace Cartridge

/-- A peephole rule. -/
inductive Rule where
  | inlineAssembly
  | romDataLength
  | romDataStride
  | romElementAtConstant
  | romElementFromStack
  | assignConstantToGlobal
  | copyGlobalToGlobal
  | addGlobalAndConstant
  | addGlobalAndConstantToGlobal
  | incrementGlobal
  | removeBranchToNext
deriving DecidableEq, Repr, Inhabited

namespace Rule

/-- The rules that always run, in order. -/
def mandatory : List Rule :=
  [.inlineAssembly, .romDataLength, .romDataStride, .romElementAtConstant, .romElementFromStack]

/-- The rules that can be switched off, in order. -/
def optional : List Rule :=
  [.assignConstantToGlobal, .copyGlobalToGlobal, .addGlobalAndConstant,
   .addGlobalAndConstantToGlobal, .incrementGlobal, .removeBranchToNext]

/-- The name by which a rule is switched off. -/
def name : Rule → String
  | .inlineAssembly => "inline_assembly"
  | .romDataLength => "rom_data_length"
  | .romDataStride => "rom_data_stride"
  | .romElementAtConstant => "rom_data_element_from_constant"
  | .romElementFromStack => "rom_data_element_from_stack"
  | .assignConstantToGlobal => "assign_constant_to_global"
  | .copyGlobalToGlobal => "copy_global_to_global"
  | .addGlobalAndConstant => "add_from_global_and_constant"
  | .addGlobalAndConstantToGlobal => "add_from_global_and_constant_to_global"
  | .incrementGlobal => "increment_global"
  | .removeBranchToNext => "remove_branch_to_next"

/-- The number of entries that a rule looks at. -/
def window : Rule → Nat
  | .inlineAssembly | .romDataLength | .romDataStride | .assignConstantToGlobal
  | .copyGlobalToGlobal | .addGlobalAndConstantToGlobal | .removeBranchToNext => 2
  | .romElementAtConstant | .romElementFromStack | .addGlobalAndConstant => 3
  | .incrementGlobal => 1

theorem window_pos (rule : Rule) : 0 < rule.window := by
  cases rule <;> decide

/-! ### Replacements -/

/-- A macro in the place of a window, with all its source instructions. -/
def fused (op : MacroOp) (window : List Entry) : Entry := .invoke ⟨op, window.flatMap (·.sources)⟩

/-- The push of a byte in the place of a window. -/
def fusedByte (value : UInt8) (window : List Entry) : Entry :=
  fused (.pushConstant (.byte value) (.type .byte) (.size .byte)) window

/-- Inline assembly in the place of a text and its use. -/
def inlineAssembly? : List Entry → Option (List Entry)
  | [.pending (.loadString _ text), .pending (.inlineAssemblyCall _)] =>
    some [.comment "Begin inline assembly", .inlineAssembly (Text.filledLines text),
      .comment "End inline assembly"]
  | _ => none

/-- The field whose address in ROM an entry pushes. -/
def romField? : Entry → Option Member
  | .invoke ⟨.pushAddressOfGlobal (.romData field) _ _, _⟩ => some field
  | _ => none

/-- A fault in the use of ROM data; the field stands for the method. -/
def romFault (field : Member) (i : Instruction) (reason : String) : Error :=
  .invalidInstruction i.offset field.fullName reason

/-- The number of elements of ROM data and the size of one. -/
def romShape (u : Universe) (field : Member) (i : Instruction) : Except Error (Nat × Nat) := do
  match (← u.findField field).romData with
  | none => throw (romFault field i "field has no ROM data")
  | some data =>
    let stride ← sizeOf u data.elementType
    if stride = 0 then throw (romFault field i "ROM data elements have zero size")
    else pure (data.bytes.length / stride, stride)

/-- A number that has to fit into a byte. -/
def fitByte (field : Member) (i : Instruction) (what : String) (value : Nat) : Except Error UInt8 :=
  if value < UInt8.size then pure (UInt8.ofNat value)
  else throw (romFault field i ("ROM data " ++ what ++ " " ++ toString value ++ " exceeds a byte"))

/-- The number of elements in the place of an address in ROM and the question for it. -/
def romDataLength? (u : Universe) : List Entry → Except Error (Option (List Entry))
  | [address, .pending (.romDataLengthCall i)] =>
    match romField? address with
    | none => pure none
    | some field => do
      let shape ← romShape u field i
      let length ← fitByte field i "length" shape.1
      pure (some [fusedByte length [address, .pending (.romDataLengthCall i)]])
  | _ => pure none

/-- The element size in the place of an address in ROM and the question for it. -/
def romDataStride? (u : Universe) : List Entry → Except Error (Option (List Entry))
  | [address, .pending (.romDataStrideCall i)] =>
    match romField? address with
    | none => pure none
    | some field => do
      let shape ← romShape u field i
      let stride ← fitByte field i "stride" shape.2
      pure (some [fusedByte stride [address, .pending (.romDataStrideCall i)]])
  | _ => pure none

/-- The address of an element at a fixed index. -/
def romElementAtConstant? : List Entry → Option (List Entry)
  | [.invoke ⟨.pushAddressOfGlobal (.romData field) type size, s₁⟩,
      .invoke ⟨.pushConstant index t₂ z₂, s₂⟩, .pending (.romDataGetterCall i)] =>
    some [fused (.pushAddressOfRomElement (.romData field) type (.pointerSize .long) index)
      [.invoke ⟨.pushAddressOfGlobal (.romData field) type size, s₁⟩,
       .invoke ⟨.pushConstant index t₂ z₂, s₂⟩, .pending (.romDataGetterCall i)]]
  | _ => none

/-- The address of an element whose index is read from a label. -/
def romElementFromStack? : List Entry → Option (List Entry)
  | [.invoke ⟨.pushAddressOfGlobal (.romData field) type size, s₁⟩,
      .invoke ⟨.pushGlobal global t₂ z₂, s₂⟩, .pending (.romDataGetterCall i)] =>
    some [.invoke ⟨.pushGlobal global t₂ z₂, s₂⟩,
      fused (.pushAddressOfRomElementFromStack (.romData field) type (.pointerSize .long))
        [.invoke ⟨.pushAddressOfGlobal (.romData field) type size, s₁⟩,
         .pending (.romDataGetterCall i)]]
  | _ => none

/-- A constant goes straight into a label. -/
def assignConstantToGlobal? : List Entry → Option (List Entry)
  | [.invoke ⟨.pushConstant value _ _, s₁⟩, .invoke ⟨.popToGlobal global _ size, s₂⟩] =>
    some [.invoke ⟨.assignConstantToGlobal value global size, s₁ ++ s₂⟩]
  | _ => none

/-- A label is copied into a label. -/
def copyGlobalToGlobal? : List Entry → Option (List Entry)
  | [.invoke ⟨.pushGlobal source _ sourceSize, s₁⟩,
      .invoke ⟨.popToGlobal target _ targetSize, s₂⟩] =>
    some [.invoke ⟨.copyGlobalToGlobal source sourceSize target targetSize, s₁ ++ s₂⟩]
  | _ => none

/-- A label and a constant are added. -/
def addGlobalAndConstant? : List Entry → Option (List Entry)
  | [.invoke ⟨.pushGlobal global globalType globalSize, s₁⟩,
      .invoke ⟨.pushConstant value constantType constantSize, s₂⟩, .invoke ⟨.addFromStack, s₃⟩]
  | [.invoke ⟨.pushConstant value constantType constantSize, s₁⟩,
      .invoke ⟨.pushGlobal global globalType globalSize, s₂⟩, .invoke ⟨.addFromStack, s₃⟩] =>
    some [.invoke ⟨.addGlobalAndConstant global globalType globalSize value constantType
      constantSize, s₁ ++ s₂ ++ s₃⟩]
  | _ => none

/-- The sum of a label and a constant goes straight into a label. -/
def addGlobalAndConstantToGlobal? : List Entry → Option (List Entry)
  | [.invoke ⟨.addGlobalAndConstant global globalType globalSize value constantType constantSize,
        s₁⟩,
      .invoke ⟨.popToGlobal target targetType targetSize, s₂⟩] =>
    some [.invoke ⟨.addGlobalAndConstantToGlobal global globalType globalSize value constantType
      constantSize target targetType targetSize, s₁ ++ s₂⟩]
  | _ => none

/-- One is added to a label in place. -/
def incrementGlobal? : List Entry → Option (List Entry)
  | [.invoke ⟨.addGlobalAndConstantToGlobal global globalType globalSize value _ _ target
      targetType _, s⟩] =>
    if value.isOne && global == target && globalType == targetType
    then some [.invoke ⟨.incrementGlobal global globalType globalSize, s⟩] else none
  | _ => none

/-- A jump to what comes next anyway is dropped. -/
def removeBranchToNext? : List Entry → Option (List Entry)
  | [.invoke ⟨.branch target, _⟩, .label l] => if target = l then some [.label l] else none
  | _ => none

/-- What a rule puts in the place of a window; nothing if the rule does not apply. -/
def replacement? (u : Universe) : Rule → List Entry → Except Error (Option (List Entry))
  | .inlineAssembly, w => pure (inlineAssembly? w)
  | .romDataLength, w => romDataLength? u w
  | .romDataStride, w => romDataStride? u w
  | .romElementAtConstant, w => pure (romElementAtConstant? w)
  | .romElementFromStack, w => pure (romElementFromStack? w)
  | .assignConstantToGlobal, w => pure (assignConstantToGlobal? w)
  | .copyGlobalToGlobal, w => pure (copyGlobalToGlobal? w)
  | .addGlobalAndConstant, w => pure (addGlobalAndConstant? w)
  | .addGlobalAndConstantToGlobal, w => pure (addGlobalAndConstantToGlobal? w)
  | .incrementGlobal, w => pure (incrementGlobal? w)
  | .removeBranchToNext, w => pure (removeBranchToNext? w)

/-- A rule does not apply to what is shorter than its window. -/
theorem replacement?_of_length_lt {rule : Rule} {w : List Entry} (h : w.length < rule.window)
    (u : Universe) : rule.replacement? u w = .ok none := by
  cases rule
  all_goals
    simp only [replacement?, inlineAssembly?, romDataLength?, romDataStride?, romElementAtConstant?,
      romElementFromStack?, assignConstantToGlobal?, copyGlobalToGlobal?, addGlobalAndConstant?,
      addGlobalAndConstantToGlobal?, incrementGlobal?, removeBranchToNext?]
    split
  all_goals first
    | rfl
    | exact absurd h (Nat.lt_irrefl _)

/-! ### Weight -/

/-- The weight of an entry. -/
def entryWeight : Entry → Nat
  | .pending _ => 4
  | .invoke ⟨.addGlobalAndConstantToGlobal .., _⟩ => 3
  | _ => 2

/-- The weight of a stream. -/
def weight : List Entry → Nat
  | [] => 0
  | e :: es => entryWeight e + weight es

@[simp] theorem weight_nil : weight [] = 0 := rfl

@[simp] theorem weight_cons (e : Entry) (es : List Entry) :
    weight (e :: es) = entryWeight e + weight es := rfl

@[simp] theorem weight_append (as bs : List Entry) :
    weight (as ++ bs) = weight as + weight bs := by
  induction as with
  | nil => simp
  | cons a as ih => simp [ih, Nat.add_assoc]

theorem entryWeight_pos (e : Entry) : 2 ≤ entryWeight e := by
  unfold entryWeight
  split <;> omega

theorem weight_of_romDataLength {u : Universe} {w r : List Entry}
    (h : romDataLength? u w = .ok (some r)) : weight r < weight w := by
  unfold romDataLength? at h
  split at h
  · split at h
    · cases h
    · simp only [bind, Except.bind] at h
      split at h
      · cases h
      · split at h
        · cases h
        · cases h
          simp [fusedByte, fused, entryWeight]
  · cases h

theorem weight_of_romDataStride {u : Universe} {w r : List Entry}
    (h : romDataStride? u w = .ok (some r)) : weight r < weight w := by
  unfold romDataStride? at h
  split at h
  · split at h
    · cases h
    · simp only [bind, Except.bind] at h
      split at h
      · cases h
      · split at h
        · cases h
        · cases h
          simp [fusedByte, fused, entryWeight]
  · cases h

/-- **A replacement weighs less than its window.** -/
theorem weight_of_replacement {u : Universe} {rule : Rule} {w r : List Entry}
    (h : rule.replacement? u w = .ok (some r)) : weight r < weight w := by
  cases rule
  case romDataLength => exact weight_of_romDataLength h
  case romDataStride => exact weight_of_romDataStride h
  case incrementGlobal =>
    simp only [replacement?, pure, Except.pure, Except.ok.injEq, incrementGlobal?] at h
    split at h
    · split at h
      · cases h
        simp [entryWeight]
      · cases h
    · cases h
  case removeBranchToNext =>
    simp only [replacement?, pure, Except.pure, Except.ok.injEq, removeBranchToNext?] at h
    split at h
    · split at h
      · cases h
        simp [entryWeight]
      · cases h
    · cases h
  all_goals
    simp only [replacement?, pure, Except.pure, Except.ok.injEq, inlineAssembly?,
      romElementAtConstant?, romElementFromStack?, assignConstantToGlobal?, copyGlobalToGlobal?,
      addGlobalAndConstant?, addGlobalAndConstantToGlobal?] at h
    split at h <;> cases h
    all_goals simp [entryWeight, fused]

theorem weight_lt_cons (e : Entry) (es : List Entry) : weight es < weight (e :: es) := by
  have := entryWeight_pos e
  rw [weight_cons]
  omega

/-- A stream gets lighter by a replacement at its head. -/
theorem weight_replace_lt {u : Universe} {rule : Rule} {es r : List Entry}
    (h : rule.replacement? u (es.take rule.window) = .ok (some r)) :
    weight (r ++ es.drop rule.window) < weight es := by
  have hlt := weight_of_replacement h
  have hsplit := congrArg weight (List.take_append_drop rule.window es)
  rw [weight_append] at hsplit ⊢
  omega

end Rule

end Cartridge
