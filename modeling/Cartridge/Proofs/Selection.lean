import Cartridge.Selection
import Cartridge.Proofs.Outcome
import Mathlib.Tactic.Common

/-!
# What selection can return

`Site.Selects` lists what an instruction becomes: nothing, a placeholder, one macro, or an inlined
body. **`Site.selects_of_select`** says that there is nothing else, that a macro jumps only to the
target of its instruction, and that it refers only to what the program declares
(`Label.Declared`).
-/

namespace Cartridge

/-! ### Lookups -/

namespace Universe

variable {u : Universe}

/-- The instruction stands in a declared body. -/
def Holds (u : Universe) (i : Instruction) : Prop := ∃ t ∈ u.types, ∃ d ∈ t.methods, i ∈ d.body

theorem of_findType {t : TypeName} {d : TypeDecl} (h : u.findType t = .ok d) :
    d ∈ u.types ∧ d.name = t.elementType := by
  simp only [findType] at h
  split at h
  · rename_i d' hfind
    cases h
    exact ⟨List.mem_of_find?_eq_some hfind, by simpa using List.find?_some hfind⟩
  · cases h

theorem of_toOption_findType {t : TypeName} {d : TypeDecl}
    (h : (u.findType t).toOption = some d) : d ∈ u.types ∧ d.name = t.elementType := by
  cases hfind : u.findType t with
  | error e => simp [hfind, Except.toOption] at h
  | ok d' =>
    rw [hfind] at h
    cases h
    exact of_findType hfind

theorem of_findMethod {m : Member} {d : MethodDecl} (h : u.findMethod m = .ok d) :
    ∃ t ∈ u.types, d ∈ t.methods := by
  unfold findMethod at h
  split at h
  · rename_i d' hfind
    cases h
    obtain ⟨t, ht, hd⟩ := Option.bind_eq_some_iff.1 hfind
    exact ⟨t, (of_toOption_findType ht).1, List.mem_of_find?_eq_some hd⟩
  · cases h

theorem of_findField {f : Member} {d : FieldDecl} (h : u.findField f = .ok d) :
    ∃ t ∈ u.types, t.name = f.declaringType.elementType ∧ d ∈ t.fields ∧ d.name = f.name := by
  unfold findField at h
  split at h
  · rename_i d' hfind
    cases h
    obtain ⟨t, ht, hd⟩ := Option.bind_eq_some_iff.1 hfind
    obtain ⟨hmem, hname⟩ := of_toOption_findType ht
    exact ⟨t, hmem, hname, List.mem_of_find?_eq_some hd, by simpa using List.find?_some hd⟩
  · cases h

theorem holds_of_findMethod {m : Member} {d : MethodDecl} (h : u.findMethod m = .ok d)
    {i : Instruction} (hi : i ∈ d.body) : u.Holds i := by
  obtain ⟨t, ht, hd⟩ := of_findMethod h
  exact ⟨t, ht, d, hd, hi⟩

theorem mem_callees {i : Instruction} {m : Member} (hi : u.Holds i) (hm : i.operand = .method m) :
    m ∈ u.callees := by
  obtain ⟨t, ht, d, hd, hi⟩ := hi
  refine List.mem_flatMap.2 ⟨t, ht, List.mem_flatMap.2 ⟨d, hd, List.mem_filterMap.2 ⟨i, hi, ?_⟩⟩⟩
  rw [Instruction.callee?, hm]

end Universe

/-! ### Declared labels -/

namespace Label

/-- What a label stands for is declared: a routine is called somewhere, a field is static, named
somewhere and takes RAM, and a slot or a result is one of its method. -/
def Declared (u : Universe) : Label → Prop
  | .function m => m ∈ u.callees
  | .global f =>
    (∃ i, u.Holds i ∧ i.operand = .field f) ∧
      ∃ d, u.findField f = .ok d ∧ d.isRamStatic = true
  | .argument m k => ∃ d, u.findMethod m = .ok d ∧ k.toNat < d.parameters.length
  | .localSlot m k => ∃ d, u.findMethod m = .ok d ∧ k.toNat < d.locals.length
  | .returnValue m => ∃ d, u.findMethod m = .ok d
  | _ => True

variable {u : Universe}

@[simp] theorem declared_type (t : TypeName) : (Label.type t).Declared u := trivial

@[simp] theorem declared_pointerType (t : TypeName) : (Label.pointerType t).Declared u := trivial

@[simp] theorem declared_size (t : TypeName) : (Label.size t).Declared u := trivial

@[simp] theorem declared_pointerSize (w : PointerWidth) : (Label.pointerSize w).Declared u :=
  trivial

@[simp] theorem declared_predefined (s : String) : (Label.predefined s).Declared u := trivial

@[simp] theorem declared_instruction (o : UInt32) : (Label.instruction o).Declared u := trivial

@[simp] theorem declared_branchTarget (s : String) : (Label.branchTarget s).Declared u := trivial

@[simp] theorem declared_romData (f : Member) : (Label.romData f).Declared u := trivial

@[simp] theorem declared_typeOf (t : TypeName) : (Label.typeOf t).Declared u := by
  unfold typeOf
  split <;> trivial

@[simp] theorem declared_sizeOf (t : TypeName) : (Label.sizeOf t).Declared u := by
  unfold sizeOf
  split <;> trivial

end Label

/-! ### Selection -/

namespace Site

/-- What an instruction becomes. -/
inductive Selects (s : Site) (i : Instruction) : List Entry → Prop where
  | nothing : Selects s i []
  | placeholder (p : Pending) : Selects s i [.pending p]
  | op (op : MacroOp) (hlabels : ∀ l ∈ op.labels, l.Declared s.context.program)
      (htarget : ∀ l, op.branchTarget? = some l →
        ∃ o, i.branchTarget? = some o ∧ l = .instruction o) : Selects s i [.ofInstruction op i]
  | inlined (callee : Member) (body : Routine) (hbody : s.inline callee = .ok body) :
      Selects s i (.inlineFunction callee (some i) :: body.body)

variable {s : Site} {i : Instruction} {sel : Selection}

theorem selects_of_one {op : MacroOp} (h : one i op = .ok sel)
    (hlabels : ∀ l ∈ op.labels, l.Declared s.context.program) (htarget : op.branchTarget? = none) :
    s.Selects i sel.entries := by
  cases h
  refine .op op hlabels fun l hl => ?_
  rw [htarget] at hl
  cases hl

theorem target_eq_ok {l : Label} (h : s.target i = .ok l) :
    ∃ o, i.branchTarget? = some o ∧ l = .instruction o := by
  unfold target at h
  split at h
  · rename_i o ho
    cases h
    exact ⟨o, ho, rfl⟩
  · cases h

/-- A macro that jumps to the target of the instruction. -/
theorem selects_of_branch {branch : Label → MacroOp}
    (hlabels : ∀ l, (branch l).labels = [l]) (htarget : ∀ l, (branch l).branchTarget? = some l)
    (h : (do one i (branch (← s.target i))) = .ok sel) : s.Selects i sel.entries := by
  obtain ⟨l, hl, h⟩ := bind_eq_ok.1 h
  obtain ⟨o, ho, rfl⟩ := target_eq_ok hl
  cases h
  refine .op _ (by simp [hlabels]) fun l' hl' => ?_
  rw [htarget] at hl'
  cases hl'
  exact ⟨o, ho, rfl⟩

section Operands

variable (hm : s.context.program.findMethod s.method = .ok s.decl)

include hm in
theorem declared_localSlot {l : Label} {t : TypeName} (h : s.localSlot i = .ok (l, t)) :
    l.Declared s.context.program := by
  obtain ⟨index, -, h⟩ := bind_eq_ok.1 h
  split at h
  · rename_i type htype
    cases h
    exact ⟨s.decl, hm, (List.getElem?_eq_some_iff.1 htype).1⟩
  · cases h

include hm in
theorem declared_argument {l : Label} {t : TypeName} (h : s.argument i = .ok (l, t)) :
    l.Declared s.context.program := by
  obtain ⟨index, -, h⟩ := bind_eq_ok.1 h
  split at h
  · rename_i p hp
    cases h
    exact ⟨s.decl, hm, (List.getElem?_eq_some_iff.1 hp).1⟩
  · cases h

theorem of_staticField {f : Member} {d : FieldDecl} (h : s.staticField i = .ok (f, d)) :
    i.operand = .field f ∧ s.context.program.findField f = .ok d ∧ d.isStatic = true := by
  obtain ⟨f', hf, h⟩ := bind_eq_ok.1 h
  obtain ⟨d', hd, h⟩ := bind_eq_ok.1 h
  have hoperand : i.operand = .field f' := by
    unfold field at hf
    split at hf
    · rename_i f'' hop
      cases hf
      exact hop
    · cases hf
  split at h
  · rename_i hstatic
    cases h
    exact ⟨hoperand, hd, hstatic⟩
  · cases h

include hm in
theorem declared_global (hi : i ∈ s.decl.body) {f : Member} {d : FieldDecl}
    (h : s.staticField i = .ok (f, d)) (hrom : d.romData.isSome = false) :
    (Label.global f).Declared s.context.program := by
  obtain ⟨hoperand, hd, hstatic⟩ := of_staticField h
  refine ⟨⟨i, Universe.holds_of_findMethod hm hi, hoperand⟩, d, hd, ?_⟩
  rw [FieldDecl.isRamStatic, hstatic, Bool.true_and, Option.isNone_iff_eq_none]
  simpa using hrom

end Operands

/-! ### Calls -/

theorem selects_of_inlineCall {callee : Member} {d : MethodDecl}
    (h : s.inlineCall i callee d = .ok sel) : s.Selects i sel.entries := by
  unfold inlineCall at h
  split at h
  · cases h
  · obtain ⟨body, hbody, h⟩ := bind_eq_ok.1 h
    cases pure_eq_ok.1 h
    exact .inlined callee body hbody

theorem selects_of_plainCall {callee : Member} {d : MethodDecl}
    (hcallee : callee ∈ s.context.program.callees) (h : plainCall i callee d = .ok sel) :
    s.Selects i sel.entries := by
  have hfunction : (Label.function callee).Declared s.context.program := hcallee
  unfold plainCall at h
  split at h
  · cases h
  · split at h
    · exact selects_of_one h (by simp [MacroOp.labels, hfunction]) rfl
    · exact selects_of_one h (by simp [MacroOp.labels, hfunction]) rfl

theorem selects_of_call (hi : s.context.program.Holds i) (h : s.call i = .ok sel) :
    s.Selects i sel.entries := by
  unfold call at h
  split at h
  · rename_i callee hoperand
    have hcallee := Universe.mem_callees hi hoperand
    obtain ⟨d, -, h⟩ := bind_eq_ok.1 h
    split at h
    · cases pure_eq_ok.1 h
      exact .nothing
    · split at h
      · exact selects_of_one h (by simp [MacroOp.labels]) rfl
      · exact selects_of_one h (by simp [MacroOp.labels]) rfl
      · cases h
    · split at h
      · cases h
      · exact selects_of_one h (by simp [MacroOp.labels]) rfl
    · split at h
      · cases h
      · exact selects_of_one h (by simp [MacroOp.labels]) rfl
    · cases pure_eq_ok.1 h
      exact .placeholder _
    · exact selects_of_inlineCall h
    · split at h
      · exact selects_of_inlineCall h
      · exact selects_of_plainCall hcallee h
  · cases h

/-! ### Instructions -/

/-- **What an instruction becomes.** -/
theorem selects_of_select (hm : s.context.program.findMethod s.method = .ok s.decl)
    (hi : i ∈ s.decl.body) (h : s.select i = .ok sel) : s.Selects i sel.entries := by
  unfold select at h
  cases hop : i.opcode <;> rw [hop] at h
  case nop | convU1 | convU | convI =>
    cases h
    exact .nothing
  case ldcM1 | ldc0 | ldc1 | ldc2 | ldc3 | ldc4 | ldc5 | ldc6 | ldc7 | ldc8 | ldcShort | ldc =>
    obtain ⟨value, -, h⟩ := bind_eq_ok.1 h
    exact selects_of_one h (by simp [MacroOp.labels]) rfl
  case ldstr =>
    dsimp only at h
    split at h
    · cases h
      exact .placeholder _
    · cases h
  case ldloc0 | ldloc1 | ldloc2 | ldloc3 | ldlocShort | ldloc | stloc0 | stloc1 | stloc2 | stloc3
      | stlocShort | stloc =>
    obtain ⟨⟨l, t⟩, hl, h⟩ := bind_eq_ok.1 h
    exact selects_of_one h (by simp [MacroOp.labels, declared_localSlot hm hl]) rfl
  case ldlocaShort | ldloca =>
    obtain ⟨⟨l, t⟩, hl, h⟩ := bind_eq_ok.1 h
    cases pure_eq_ok.1 h
    exact .op _ (by simp [MacroOp.labels, declared_localSlot hm hl]) (fun _ h => by cases h)
  case ldarg0 | ldarg1 | ldarg2 | ldarg3 | ldargShort | ldarg =>
    obtain ⟨⟨l, t⟩, hl, h⟩ := bind_eq_ok.1 h
    exact selects_of_one h (by simp [MacroOp.labels, declared_argument hm hl]) rfl
  case ldsfld | stsfld =>
    obtain ⟨⟨f, d⟩, hf, h⟩ := bind_eq_ok.1 h
    dsimp only at h
    split at h
    · cases h
    · rename_i hrom
      have hglobal := declared_global hm hi hf (Bool.eq_false_iff.2 hrom)
      exact selects_of_one h (by simp [MacroOp.labels, hglobal]) rfl
  case ldsflda =>
    obtain ⟨⟨f, d⟩, hf, h⟩ := bind_eq_ok.1 h
    dsimp only at h
    split at h
    · exact selects_of_one h (by simp [MacroOp.labels]) rfl
    · rename_i hrom
      have hglobal := declared_global hm hi hf (by rw [hrom]; rfl)
      exact selects_of_one h (by simp [MacroOp.labels, hglobal]) rfl
  case ldfld | stfld | ldflda =>
    obtain ⟨⟨offset, t⟩, -, h⟩ := bind_eq_ok.1 h
    exact selects_of_one h (by simp [MacroOp.labels]) rfl
  case ldobj | initobj =>
    obtain ⟨t, -, h⟩ := bind_eq_ok.1 h
    exact selects_of_one h (by simp [MacroOp.labels]) rfl
  case ldindU1 | stindI1 | add | sub | or | ceq | dup | pop =>
    exact selects_of_one h (by simp [MacroOp.labels]) rfl
  case br | brShort | brtrue | brtrueShort | brfalse | brfalseShort | blt | bltShort =>
    exact selects_of_branch (fun _ => rfl) (fun _ => rfl) h
  case call => exact selects_of_call (Universe.holds_of_findMethod hm hi) h
  case ret =>
    have hresult : (Label.returnValue s.method).Declared s.context.program := ⟨s.decl, hm⟩
    dsimp only at h
    split at h
    · exact selects_of_one h (by simp [MacroOp.labels]) rfl
    · exact selects_of_one h (by simp [MacroOp.labels, hresult]) rfl
  -- What is left has no macro.
  all_goals cases h

end Site

end Cartridge
