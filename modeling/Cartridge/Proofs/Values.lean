import Cartridge.Proofs.FirstOccurrence
import Cartridge.Proofs.Peephole.Optional
import Cartridge.Proofs.Selection

/-!
# What streams refer to

A macro that moves a value has the value's type and size among its operands. In the streams of a
program these describe the type of a constant or of a variable that the entry refers to
(`Entry.variableTypes`), and a jump leads to a position (`Described`). Selection makes such streams,
and rules keep them so, since a fused macro refers to all variables of its window.

What an optional rule drops then describes values or is a position. The routines, the memory and the
data in ROM that a stream refers to (`storage`) stay the same, in the order of their first
occurrence (`eraseDups_storage_of_optional`).
-/

namespace Cartridge

/-! ### Kinds of labels -/

namespace Label

/-- Whether the label is a routine, memory or data in ROM. -/
def isStorage : Label → Bool
  | .function _ | .argument .. | .localSlot .. | .global _ | .returnValue _ | .romData _ => true
  | _ => false

/-- Whether the label is a position inside a routine. -/
def isPosition : Label → Bool
  | .branchTarget _ | .instruction _ => true
  | _ => false

@[simp] theorem isStorage_typeOf (t : TypeName) : (typeOf t).isStorage = false := by
  unfold typeOf
  split <;> rfl

@[simp] theorem isStorage_sizeOf (t : TypeName) : (sizeOf t).isStorage = false := by
  unfold sizeOf
  split <;> rfl

theorem isStorage_of_isPosition {l : Label} (h : l.isPosition = true) : l.isStorage = false := by
  cases l <;> first | rfl | cases h

end Label

/-! ### Types and sizes of values -/

/-- The type of a static field, a parameter or a local. -/
def Universe.variableType? (u : Universe) : Label → Option TypeName
  | .global f => (u.findField f).toOption.map (·.type)
  | .argument m index =>
    (u.findMethod m).toOption.bind fun d => d.parameters[index.toNat]?.map (·.type)
  | .localSlot m index => (u.findMethod m).toOption.bind fun d => d.locals[index.toNat]?
  | _ => none

/-- The types of what a method reads from a symbol or stores to it. -/
def Universe.symbolTypes (u : Universe) (m : Member) : List TypeName :=
  match u.findMethod m with
  | .error _ => []
  | .ok d =>
    match d.marker with
    | some (.loadFromSymbol _) => [d.returnType]
    | some (.storeToSymbol _) => d.parameters.map (·.type)
    | _ => []

/-- The types of the variables that an entry refers to, and of the symbols that its instructions
read or store to. -/
def Entry.variableTypes (u : Universe) (e : Entry) : List TypeName :=
  e.labels.filterMap u.variableType? ++ (e.sources.filterMap (·.callee?)).flatMap u.symbolTypes

namespace Entry

variable {u : Universe} {e e' : Entry} {t : TypeName}

theorem mem_variableTypes_of_label {l : Label} (hl : l ∈ e.labels)
    (ht : u.variableType? l = some t) : t ∈ e.variableTypes u :=
  List.mem_append_left _ (List.mem_filterMap.2 ⟨l, hl, ht⟩)

theorem mem_variableTypes_of_source {i : Instruction} {m : Member} (hi : i ∈ e.sources)
    (hm : i.callee? = some m) (ht : t ∈ u.symbolTypes m) : t ∈ e.variableTypes u :=
  List.mem_append_right _
    (List.mem_flatMap.2 ⟨m, List.mem_filterMap.2 ⟨i, hi, hm⟩, ht⟩)

theorem mem_variableTypes_iff :
    t ∈ e.variableTypes u ↔ (∃ l ∈ e.labels, u.variableType? l = some t) ∨
      ∃ i ∈ e.sources, ∃ m, i.callee? = some m ∧ t ∈ u.symbolTypes m := by
  simp only [variableTypes, List.mem_append, List.mem_filterMap, List.mem_flatMap]
  grind

theorem variableTypes_subset (hlabels : ∀ l ∈ e.labels, u.variableType? l = none ∨ l ∈ e'.labels)
    (hsources : e.sources ⊆ e'.sources) : e.variableTypes u ⊆ e'.variableTypes u := by
  intro t ht
  rcases mem_variableTypes_iff.1 ht with ⟨l, hl, ht⟩ | ⟨i, hi, m, hm, ht⟩
  · rcases hlabels l hl with hnone | hl
    · rw [hnone] at ht
      cases ht
    · exact mem_variableTypes_of_label hl ht
  · exact mem_variableTypes_of_source (hsources hi) hm ht

end Entry

/-- The labels describe a byte. -/
def Label.DescribeByte (type size : Label) : Prop := type = .type .byte ∧ size = .size .byte

/-- The labels describe one of the types. -/
def Label.DescribeVariable (types : List TypeName) (type size : Label) : Prop :=
  ∃ t ∈ types, type = .typeOf t ∧ size = .sizeOf t

namespace Label

variable {types types' : List TypeName} {type size : Label}

theorem DescribeByte.isStorage (h : DescribeByte type size) :
    type.isStorage = false ∧ size.isStorage = false := by
  obtain ⟨rfl, rfl⟩ := h
  exact ⟨rfl, rfl⟩

theorem DescribeByte.variableType? (h : DescribeByte type size) (u : Universe) :
    u.variableType? type = none ∧ u.variableType? size = none := by
  obtain ⟨rfl, rfl⟩ := h
  exact ⟨rfl, rfl⟩

theorem DescribeVariable.mono (h : DescribeVariable types type size) (hsub : types ⊆ types') :
    DescribeVariable types' type size := by
  obtain ⟨t, ht, hdescribe⟩ := h
  exact ⟨t, hsub ht, hdescribe⟩

theorem DescribeVariable.variableType? (h : DescribeVariable types type size) (u : Universe) :
    u.variableType? type = none ∧ u.variableType? size = none := by
  obtain ⟨t, -, rfl, rfl⟩ := h
  unfold typeOf sizeOf
  split <;> exact ⟨rfl, rfl⟩

theorem DescribeVariable.isStorage (h : DescribeVariable types type size) :
    type.isStorage = false ∧ size.isStorage = false := by
  obtain ⟨t, -, rfl, rfl⟩ := h
  exact ⟨isStorage_typeOf t, isStorage_sizeOf t⟩

end Label

/-- Constants are described as bytes and variables by one of the types, as far as the operands of
the macro describe them, and the macro jumps to a position. -/
def MacroOp.Described (types : List TypeName) : MacroOp → Prop
  | .pushConstant _ type size => Label.DescribeByte type size
  | .pushGlobal _ type size | .popToGlobal _ type size | .incrementGlobal _ type size =>
    Label.DescribeVariable types type size
  | .addGlobalAndConstant _ type size _ constantType constantSize =>
    Label.DescribeVariable types type size ∧ Label.DescribeByte constantType constantSize
  | .addGlobalAndConstantToGlobal _ type size _ constantType constantSize _ targetType
      targetSize =>
    Label.DescribeVariable types type size ∧ Label.DescribeByte constantType constantSize ∧
      Label.DescribeVariable types targetType targetSize
  | .branch target => target.isPosition = true
  | _ => True

/-- The same for the macro of an entry, with the types of the variables that it refers to. -/
def Entry.Described (u : Universe) : Entry → Prop
  | .invoke call => call.op.Described (variableTypes u (.invoke call))
  | _ => True

namespace Peephole

variable {u : Universe} {rules : List Rule} {es es' : List Entry}

/-- Every entry of the stream is described. -/
def Described (u : Universe) (es : List Entry) : Prop := ∀ e ∈ es, e.Described u

theorem described_append {as bs : List Entry} :
    Described u (as ++ bs) ↔ Described u as ∧ Described u bs := List.forall_mem_append

theorem described_of_replaces {rule : Rule} {w r : List Entry} (h : rule.Replaces u w r)
    (hw : Described u w) : Described u r := by
  cases h
  all_goals
    simp only [Described, List.forall_mem_cons, List.not_mem_nil, false_imp_iff, implies_true,
      and_true, true_and, and_self, Entry.Described, MacroOp.Described, Label.DescribeByte] at hw ⊢
  case romElementFromStack => exact hw
  case addGlobalFirst =>
    refine ⟨hw.1.mono (Entry.variableTypes_subset ?_ ?_), hw.2⟩
    all_goals simp [Entry.labels, MacroOp.labels, Entry.sources]
  case addConstantFirst =>
    refine ⟨hw.2.mono (Entry.variableTypes_subset ?_ ?_), hw.1⟩
    all_goals simp [Entry.labels, MacroOp.labels, Entry.sources]
  case addGlobalAndConstantToGlobal =>
    refine ⟨hw.1.1.mono (Entry.variableTypes_subset ?_ ?_), hw.1.2,
      hw.2.mono (Entry.variableTypes_subset ?_ ?_)⟩
    all_goals simp [Entry.labels, MacroOp.labels, Entry.sources]
  case incrementGlobal =>
    -- The labels that are dropped are no variables.
    have hconstant := Label.DescribeByte.variableType? hw.2.1 u
    have htarget := hw.2.2.variableType? u
    refine hw.1.mono (Entry.variableTypes_subset ?_ ?_)
    all_goals simp [Entry.labels, MacroOp.labels, Entry.sources, hconstant, htarget]

theorem Described.of_rewrites (h : Described u es) (hr : Rewrites u rules es es') :
    Described u es' := by
  obtain ⟨before, after, _, hw⟩ := hr
  rw [described_append, described_append] at h ⊢
  exact ⟨⟨h.1.1, described_of_replaces hw h.1.2⟩, h.2⟩

/-! ### Storage -/

/-- The routines, the memory and the data in ROM that a stream refers to, in order. -/
def storage (es : List Entry) : List Label := (es.flatMap (·.labels)).filter (·.isStorage)

@[simp] theorem storage_append (as bs : List Entry) :
    storage (as ++ bs) = storage as ++ storage bs := by
  simp [storage]

theorem eraseDups_storage_of_replaces {rule : Rule} {w r : List Entry}
    (hr : rule ∈ Rule.optional) (h : rule.Replaces u w r) (hw : Described u w) :
    (storage r).eraseDups = (storage w).eraseDups := by
  cases h
  all_goals first | exact absurd hr (by decide) | skip
  all_goals
    simp only [Described, List.forall_mem_cons, List.not_mem_nil, false_imp_iff, implies_true,
      and_true, Entry.Described, MacroOp.Described] at hw
  case assignConstantToGlobal =>
    have hconstant := hw.1.isStorage
    have hvariable := hw.2.isStorage
    simp [storage, Entry.labels, MacroOp.labels, List.filter_cons, hconstant, hvariable]
  case copyGlobalToGlobal =>
    have hsource := hw.1.isStorage
    have htarget := hw.2.isStorage
    simp [storage, Entry.labels, MacroOp.labels, List.filter_cons, hsource, htarget]
  case addGlobalFirst | addGlobalAndConstantToGlobal => rfl
  case addConstantFirst =>
    have hconstant := hw.1.isStorage
    have hvariable := hw.2.isStorage
    simp [storage, Entry.labels, MacroOp.labels, List.filter_cons, hconstant, hvariable]
  case incrementGlobal global _ _ _ _ _ _ _ _ =>
    have hvariable := hw.1.isStorage
    have hconstant := hw.2.1.isStorage
    have htarget := hw.2.2.isStorage
    by_cases hglobal : global.isStorage = true
    · simp [storage, Entry.labels, MacroOp.labels, hconstant, hvariable, htarget, hglobal,
        List.eraseDups_cons]
    · simp [storage, Entry.labels, MacroOp.labels, hconstant, hvariable, htarget, hglobal]
  case removeBranchToNext =>
    simp [storage, Entry.labels, MacroOp.labels, Label.isStorage_of_isPosition hw]

/-- **Optional rules keep the storage of a stream**, in the order of first occurrence. -/
theorem eraseDups_storage_of_optional (hes : Described u es)
    (h : Rewrites u Rule.optional es es') : (storage es').eraseDups = (storage es).eraseDups := by
  obtain @⟨before, after, rule, w, r, hr, hw⟩ := h
  rw [described_append, described_append] at hes
  simp only [storage_append]
  exact eraseDups_append_congr
    (eraseDups_append_congr rfl (eraseDups_storage_of_replaces hr hw hes.1.2)) rfl

theorem Alike.eraseDups_storage (h : Alike u es es') (hes : Described u es)
    (hes' : Described u es') : (storage es).eraseDups = (storage es').eraseDups :=
  h.congr (f := fun es => (storage es).eraseDups) (fun _ _ => Described.of_rewrites)
    (fun _ _ => eraseDups_storage_of_optional) hes hes'

end Peephole

/-! ### Selected streams -/

namespace Site

open Peephole (Described)

variable {s : Site} {i : Instruction} {sel : Selection}

theorem described_of_one {op : MacroOp} (h : one i op = .ok sel)
    (hop : op.Described (Entry.variableTypes s.context.program (.ofInstruction op i))) :
    Described s.context.program sel.entries := by
  cases h
  intro e he
  cases List.mem_singleton.1 he
  exact hop

theorem mem_variableTypes_of_callee {op : MacroOp} {callee : Member} {t : TypeName}
    (hoperand : i.operand = .method callee) (ht : t ∈ s.context.program.symbolTypes callee) :
    t ∈ Entry.variableTypes s.context.program (.ofInstruction op i) :=
  Entry.mem_variableTypes_of_source (List.mem_singleton_self i)
    (by rw [Instruction.callee?, hoperand]) ht

section Operands

variable (hm : s.context.program.findMethod s.method = .ok s.decl)

include hm in
theorem variableType?_localSlot {l : Label} {t : TypeName} (h : s.localSlot i = .ok (l, t)) :
    s.context.program.variableType? l = some t := by
  obtain ⟨index, -, h⟩ := bind_eq_ok.1 h
  split at h
  · rename_i type htype
    cases h
    simp [Universe.variableType?, hm, Except.toOption, htype]
  · cases h

include hm in
theorem variableType?_argument {l : Label} {t : TypeName} (h : s.argument i = .ok (l, t)) :
    s.context.program.variableType? l = some t := by
  obtain ⟨index, -, h⟩ := bind_eq_ok.1 h
  split at h
  · rename_i p hp
    cases h
    simp [Universe.variableType?, hm, Except.toOption, hp]
  · cases h

theorem variableType?_staticField {f : Member} {d : FieldDecl} (h : s.staticField i = .ok (f, d)) :
    s.context.program.variableType? (.global f) = some d.type := by
  obtain ⟨-, hfind, -⟩ := of_staticField h
  simp [Universe.variableType?, hfind, Except.toOption]

end Operands

theorem described_of_call
    (hinline : ∀ callee body, s.inline callee = .ok body →
      Described s.context.program body.body)
    (h : s.call i = .ok sel) : Described s.context.program sel.entries := by
  have hbody : ∀ callee d, s.inlineCall i callee d = .ok sel →
      Described s.context.program sel.entries := by
    intro callee d h
    unfold inlineCall at h
    split at h
    · cases h
    · obtain ⟨body, hbody, h⟩ := bind_eq_ok.1 h
      cases pure_eq_ok.1 h
      exact List.forall_mem_cons.2 ⟨trivial, hinline callee body hbody⟩
  unfold call at h
  split at h
  · rename_i callee hoperand
    obtain ⟨d, hfind, h⟩ := bind_eq_ok.1 h
    split at h
    · cases pure_eq_ok.1 h
      exact List.forall_mem_nil _
    · rename_i symbol hmarker
      split at h
      · exact described_of_one h trivial
      · rename_i p hp
        refine described_of_one h ⟨p.type, mem_variableTypes_of_callee hoperand ?_, rfl, rfl⟩
        simp [Universe.symbolTypes, hfind, hmarker, hp]
      · cases h
    · rename_i symbol hmarker
      split at h
      · cases h
      · refine described_of_one h ⟨d.returnType, mem_variableTypes_of_callee hoperand ?_, rfl, rfl⟩
        simp [Universe.symbolTypes, hfind, hmarker]
    · split at h
      · cases h
      · exact described_of_one h trivial
    · cases pure_eq_ok.1 h
      exact List.forall_mem_singleton.2 trivial
    · exact hbody _ d h
    · split at h
      · exact hbody _ d h
      · unfold plainCall at h
        split at h
        · cases h
        · split at h <;> exact described_of_one h trivial
  · cases h

/-- **Selected entries are described.** -/
theorem described_of_select (hm : s.context.program.findMethod s.method = .ok s.decl)
    (hinline : ∀ callee body, s.inline callee = .ok body →
      Described s.context.program body.body)
    (h : s.select i = .ok sel) : Described s.context.program sel.entries := by
  unfold select at h
  cases hop : i.opcode <;> rw [hop] at h
  case nop | convU1 | convU | convI =>
    cases h
    exact List.forall_mem_nil _
  case ldcM1 | ldc0 | ldc1 | ldc2 | ldc3 | ldc4 | ldc5 | ldc6 | ldc7 | ldc8 | ldcShort | ldc =>
    obtain ⟨value, -, h⟩ := bind_eq_ok.1 h
    exact described_of_one h ⟨rfl, rfl⟩
  case ldstr =>
    dsimp only at h
    split at h
    · cases h
      exact List.forall_mem_singleton.2 trivial
    · cases h
  case ldloc0 | ldloc1 | ldloc2 | ldloc3 | ldlocShort | ldloc | stloc0 | stloc1 | stloc2 | stloc3
      | stlocShort | stloc =>
    obtain ⟨⟨l, t⟩, hl, h⟩ := bind_eq_ok.1 h
    have ht := variableType?_localSlot hm hl
    exact described_of_one h
      ⟨t, Entry.mem_variableTypes_of_label (List.mem_cons_self ..) ht, rfl, rfl⟩
  case ldlocaShort | ldloca =>
    obtain ⟨⟨l, t⟩, -, h⟩ := bind_eq_ok.1 h
    cases pure_eq_ok.1 h
    exact List.forall_mem_singleton.2 trivial
  case ldarg0 | ldarg1 | ldarg2 | ldarg3 | ldargShort | ldarg =>
    obtain ⟨⟨l, t⟩, hl, h⟩ := bind_eq_ok.1 h
    have ht := variableType?_argument hm hl
    exact described_of_one h
      ⟨t, Entry.mem_variableTypes_of_label (List.mem_cons_self ..) ht, rfl, rfl⟩
  case ldsfld | stsfld =>
    obtain ⟨⟨f, d⟩, hf, h⟩ := bind_eq_ok.1 h
    dsimp only at h
    split at h
    · cases h
    · have ht := variableType?_staticField hf
      exact described_of_one h
        ⟨d.type, Entry.mem_variableTypes_of_label (List.mem_cons_self ..) ht, rfl, rfl⟩
  case ldsflda =>
    obtain ⟨⟨f, d⟩, -, h⟩ := bind_eq_ok.1 h
    dsimp only at h
    split at h <;> exact described_of_one h trivial
  case ldfld | stfld | ldflda =>
    obtain ⟨⟨offset, t⟩, -, h⟩ := bind_eq_ok.1 h
    exact described_of_one h trivial
  case ldobj | initobj =>
    obtain ⟨t, -, h⟩ := bind_eq_ok.1 h
    exact described_of_one h trivial
  case ldindU1 | stindI1 | add | sub | or | ceq | dup | pop => exact described_of_one h trivial
  case br | brShort =>
    obtain ⟨l, hl, h⟩ := bind_eq_ok.1 h
    obtain ⟨o, -, rfl⟩ := target_eq_ok hl
    exact described_of_one h rfl
  case brtrue | brtrueShort | brfalse | brfalseShort | blt | bltShort =>
    obtain ⟨l, -, h⟩ := bind_eq_ok.1 h
    exact described_of_one h trivial
  case call => exact described_of_call hinline h
  case ret =>
    dsimp only at h
    split at h <;> exact described_of_one h trivial
  all_goals cases h

end Site

end Cartridge
