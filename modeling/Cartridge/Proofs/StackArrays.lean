import Cartridge.StackModel
import Cartridge.Proofs.Outcome

/-!
# The stack arrays describe the operand stack

While a program is assembled, `STACK_TYPEOF` and `STACK_SIZEOF` have to hold type and size of every
value on the operand stack. `Interpretation.assemble` runs the assignments of a stream, and
`Interpretation.stackAfter` keeps the types and sizes of the stack themselves, macro by macro.
Labels, literals and functions of the assembler may have any values (`Interpretation`).

**`StackModel.arrays_of_track`**: in the stream that `track` returns, both arrays hold the stack,
top first and filled up with empty slots, right before every macro and at the end. Two facts carry
the proof. The slots after a macro, evaluated in the arrays before it, are the stack after it
(`map_eval_slotsAfter`): a push drops an empty slot, since the arrays are as wide as the stack ever
gets. And both arrays can be assigned one after the other, since types do not depend on sizes
(`assemble_setters`).
-/

namespace Cartridge

/-! ### Values of expressions -/

namespace Expression

mutual

/-- The slots that an expression reads. -/
def reads : Expression → List (StackArray × Nat)
  | .label _ | .constant _ => []
  | .slot array index => [(array, index)]
  | .call _ args => readsList args

/-- The slots that several expressions read. -/
def readsList : List Expression → List (StackArray × Nat)
  | [] => []
  | e :: es => reads e ++ readsList es

end

end Expression

/-- Whether an entry assigns one of the arrays. -/
def Entry.isArrayLet : Entry → Bool
  | .directive (.arrayLet _ _) => true
  | _ => false

/-- What labels, literals and functions mean to the assembler. -/
structure Interpretation (V : Type) where
  label : Label → V
  constant : Constant → V
  function : String → List V → V

namespace Interpretation

variable {V : Type} (I : Interpretation V)

mutual

/-- The value of an expression, given those of the slots. -/
def eval (slot : StackArray → Nat → V) : Expression → V
  | .label l => I.label l
  | .constant c => I.constant c
  | .slot array index => slot array index
  | .call f args => I.function f (evalList slot args)

/-- The values of several expressions. -/
def evalList (slot : StackArray → Nat → V) : List Expression → List V
  | [] => []
  | e :: es => eval slot e :: evalList slot es

end

variable {I} {slot slot' : StackArray → Nat → V}

mutual

theorem eval_congr : ∀ {e : Expression},
    (∀ r ∈ e.reads, slot r.1 r.2 = slot' r.1 r.2) → I.eval slot e = I.eval slot' e
  | .label _, _ => rfl
  | .constant _, _ => rfl
  | .slot array index, h => h (array, index) (List.mem_singleton_self _)
  | .call f _, h => congrArg (I.function f) (evalList_congr h)

theorem evalList_congr : ∀ {es : List Expression},
    (∀ r ∈ Expression.readsList es, slot r.1 r.2 = slot' r.1 r.2) →
      I.evalList slot es = I.evalList slot' es
  | [], _ => rfl
  | _ :: _, h =>
    congrArg₂ List.cons (eval_congr fun r hr => h r (List.mem_append_left _ hr))
      (evalList_congr fun r hr => h r (List.mem_append_right _ hr))

end

variable (I)

/-- The value in an empty slot of an array. -/
def nothing : StackArray → V
  | .typeOf => I.label (.type .nothing)
  | .sizeOf => I.label (.size .nothing)

/-! ### The assembler -/

/-- The elements of an array, with an empty slot at every index past its end. -/
def slotOf (arrays : StackArray → List V) (array : StackArray) (index : Nat) : V :=
  (arrays array).getD index (I.nothing array)

/-- The arrays after an assignment. An index past the end of an array is an error. -/
def assign (arrays : StackArray → List V) (array : StackArray) (elements : List Expression) :
    Option (StackArray → List V) :=
  if ∀ e ∈ elements, ∀ r ∈ e.reads, r.2 < (arrays r.1).length then
    some fun k => if k = array then elements.map (I.eval (I.slotOf arrays)) else arrays k
  else none

/-- The arrays after the assignments of a stream. -/
def assembleFrom (arrays : StackArray → List V) : List Entry → Option (StackArray → List V)
  | [] => some arrays
  | .directive (.arrayLet array elements) :: es =>
    (I.assign arrays array elements).bind (assembleFrom · es)
  | _ :: es => assembleFrom arrays es

/-- The arrays after a stream, where none has elements at its start. -/
def assemble (es : List Entry) : Option (StackArray → List V) := I.assembleFrom (fun _ => []) es

/-! ### The stack -/

/-- The part of a stack value that an array holds. -/
def part : StackArray → V × V → V
  | .typeOf => Prod.fst
  | .sizeOf => Prod.snd

/-- The parts of a stack, top first, with empty slots below. -/
def stackSlot (stack : List (V × V)) (array : StackArray) (index : Nat) : V :=
  (stack.map (part array)).getD index (I.nothing array)

/-- The types and sizes on the stack after a macro: it takes values, and puts the one that it
pushes, as evaluated in the stack before. -/
def stackStep (stack : List (V × V)) (op : MacroOp) : List (V × V) :=
  match op.pushed? with
  | none => stack.drop op.effect.pops
  | some (type, size) =>
    (I.eval (I.stackSlot stack) type, I.eval (I.stackSlot stack) size) ::
      stack.drop op.effect.pops

/-- The types and sizes on the stack after the macros of a stream. -/
def stackFrom (stack : List (V × V)) (es : List Entry) : List (V × V) :=
  (es.filterMap (·.op?)).foldl I.stackStep stack

/-- The types and sizes on the stack after a stream that starts with an empty stack. -/
def stackAfter (es : List Entry) : List (V × V) := I.stackFrom [] es

/-- A stack as both arrays should hold it: top first, filled up with empty slots. -/
def arraysOf (width : Nat) (stack : List (V × V)) (array : StackArray) : List V :=
  stack.map (part array) ++ List.replicate (width - stack.length) (I.nothing array)

/-! ### What macros push -/

end Interpretation

namespace MacroOp

theorem pushes_eq_length (op : MacroOp) : op.effect.pushes = op.pushed?.toList.length := by
  cases op <;> rfl

/-- A macro reads slots that it takes, but for the top slot, which `duplicate` leaves. -/
theorem reads_pushed {op : MacroOp} {type size : Expression} (h : op.pushed? = some (type, size)) :
    ∀ r ∈ type.reads ++ size.reads, r.2 < max op.effect.pops 1 := by
  cases op <;> cases h <;>
    simp [Expression.reads, Expression.readsList, Expression.stackType, Expression.stackSize,
      sumType, builtInSize, effect]

/-- Types do not depend on sizes. -/
theorem reads_pushedType {op : MacroOp} {type size : Expression}
    (h : op.pushed? = some (type, size)) : ∀ r ∈ type.reads, r.1 = .typeOf := by
  cases op <;> cases h <;>
    simp [Expression.reads, Expression.readsList, Expression.stackType, sumType]

end MacroOp

/-! ### Slots after a macro -/

namespace Slot

/-- The expression that an array holds of a slot. -/
def part : StackArray → Slot → Expression
  | .typeOf => Slot.type
  | .sizeOf => Slot.size

end Slot

namespace StackModel

theorem slots_drop (m : StackModel) (n : Nat) (h : n ≤ m.slots.length) :
    (m.drop n).slots = m.slots.drop n ++ List.replicate n .nothing := by
  induction n generalizing m with
  | zero => simp [drop]
  | succ n ih =>
    obtain ⟨slots⟩ := m
    cases slots with
    | nil => simp at h
    | cons top slots =>
      have hn : n ≤ slots.length := by simpa using h
      rw [drop, ih _ (by simp only [List.tail_cons, List.length_append]; omega)]
      rw [List.tail_cons, List.drop_append_of_le_length hn, List.drop_succ_cons,
        List.append_assoc, List.singleton_append, List.replicate_succ]

/-- The slots after a macro, starting from placeholders. -/
def slotsAfter (width : Nat) (op : MacroOp) : List Slot :=
  let kept := (placeholders width).slots.drop op.effect.pops ++
    List.replicate op.effect.pops .nothing
  match op.pushed? with
  | none => kept
  | some (type, size) => ⟨type, size⟩ :: kept.dropLast

@[simp] theorem length_placeholders (width : Nat) :
    (placeholders width).slots.length = width := by simp [placeholders]

theorem apply_placeholders {width : Nat} {op : MacroOp} (hpops : op.effect.pops ≤ width)
    (hpush : op.pushed?.isSome → 0 < width) :
    (placeholders width).apply op = .ok ⟨slotsAfter width op⟩ := by
  have hpop : (placeholders width).pop op.effect.pops =
      .ok ((placeholders width).drop op.effect.pops) := by
    rw [pop, if_neg]
    rintro ⟨hne, hempty⟩
    rw [List.isEmpty_iff, ← List.length_eq_zero_iff, length_placeholders] at hempty
    omega
  have hslots := slots_drop (placeholders width) op.effect.pops (by simpa using hpops)
  rw [apply, hpop]
  unfold slotsAfter
  cases hp : op.pushed? with
  | none => exact congrArg (Except.ok ∘ StackModel.mk) hslots
  | some pushed =>
    obtain ⟨type, size⟩ := pushed
    have hlen : ((placeholders width).drop op.effect.pops).slots.length = width := by
      rw [hslots, List.length_append, List.length_drop, List.length_replicate, length_placeholders]
      omega
    have hne : ¬ ((placeholders width).drop op.effect.pops).slots.isEmpty = true := by
      rw [List.isEmpty_iff, ← List.length_eq_zero_iff, hlen]
      have := hpush (by rw [hp]; rfl)
      omega
    show ((placeholders width).drop op.effect.pops).push ⟨type, size⟩ = _
    rw [push, if_neg hne, hslots]

/-- What holds of the placeholders, of the empty slot and of a pushed one holds of every slot after
a macro. -/
theorem of_mem_slotsAfter (P : Slot → Prop) {width : Nat} {op : MacroOp} {slot : Slot}
    (h : slot ∈ slotsAfter width op) (hplace : ∀ i < width, P (.placeholder i)) (hnone : P .nothing)
    (hpush : ∀ type size, op.pushed? = some (type, size) → P ⟨type, size⟩) : P slot := by
  have hkept : ∀ slot ∈ (placeholders width).slots.drop op.effect.pops ++
      List.replicate op.effect.pops Slot.nothing, P slot := by
    intro slot hslot
    rcases List.mem_append.1 hslot with hslot | hslot
    · obtain ⟨i, hi, rfl⟩ := List.mem_map.1 (List.mem_of_mem_drop hslot)
      exact hplace i (List.mem_range.1 hi)
    · rw [List.eq_of_mem_replicate hslot]
      exact hnone
  unfold slotsAfter at h
  cases hp : op.pushed? with
  | none =>
    rw [hp] at h
    exact hkept slot h
  | some pushed =>
    obtain ⟨type, size⟩ := pushed
    rw [hp] at h
    rcases List.mem_cons.1 h with rfl | h
    · exact hpush type size hp
    · exact hkept slot ((List.dropLast_sublist _).subset h)

theorem reads_slotsAfter {width : Nat} {op : MacroOp} (hpops : op.effect.pops ≤ width)
    (hpush : op.pushed?.isSome → 0 < width) {slot : Slot} (h : slot ∈ slotsAfter width op)
    (array : StackArray) : ∀ r ∈ (slot.part array).reads, r.2 < width := by
  refine of_mem_slotsAfter (fun slot => ∀ r ∈ (slot.part array).reads, r.2 < width) h
    (fun i hi r hr => ?_) (fun r hr => ?_) fun type size hp r hr => ?_
  · obtain rfl : r = (array, i) := by
      cases array <;> exact List.mem_singleton.1 hr
    exact hi
  · cases array <;> cases hr
  · have hwidth := hpush (by rw [hp]; rfl)
    have hr' : r ∈ type.reads ++ size.reads := by
      cases array with
      | typeOf => exact List.mem_append_left _ hr
      | sizeOf => exact List.mem_append_right _ hr
    have := MacroOp.reads_pushed hp r hr'
    omega

theorem reads_type_slotsAfter {width : Nat} {op : MacroOp} {slot : Slot}
    (h : slot ∈ slotsAfter width op) : ∀ r ∈ slot.type.reads, r.1 = .typeOf := by
  refine of_mem_slotsAfter (fun slot => ∀ r ∈ slot.type.reads, r.1 = .typeOf) h
    (fun i _ r hr => ?_) (fun r hr => ?_) fun type size hp => ?_
  · rw [List.mem_singleton.1 hr]
  · cases hr
  · exact MacroOp.reads_pushedType hp

theorem length_slotsAfter {width : Nat} {op : MacroOp} (hpops : op.effect.pops ≤ width)
    (hpush : op.pushed?.isSome → 0 < width) : (slotsAfter width op).length = width := by
  unfold slotsAfter
  cases hp : op.pushed? with
  | none => simp; omega
  | some pushed =>
    have := hpush (by rw [hp]; rfl)
    simp; omega

end StackModel

namespace Interpretation

variable {V : Type} {I : Interpretation V} {width : Nat} {stack : List (V × V)}

/-! ### Slots against the stack -/

@[simp] theorem length_arraysOf (h : stack.length ≤ width) (array : StackArray) :
    (I.arraysOf width stack array).length = width := by
  simp only [arraysOf, List.length_append, List.length_map, List.length_replicate]
  omega

theorem slotOf_arraysOf (I : Interpretation V) (width : Nat) (stack : List (V × V)) :
    I.slotOf (I.arraysOf width stack) = I.stackSlot stack := by
  funext array index
  simp only [slotOf, arraysOf, stackSlot, List.getD_eq_getElem?_getD, List.getElem?_append]
  split
  · rfl
  · rename_i h
    have hnone : (stack.map (part array))[index]? = none := List.getElem?_eq_none (by omega)
    rw [hnone, List.getElem?_replicate]
    split <;> rfl

theorem map_eval_placeholders (h : stack.length ≤ width) (array : StackArray) :
    (StackModel.placeholders width).slots.map
      (fun slot => I.eval (I.stackSlot stack) (slot.part array)) =
      I.arraysOf width stack array := by
  have hpart : ∀ i, I.eval (I.stackSlot stack) ((Slot.placeholder i).part array) =
      I.stackSlot stack array i := by
    intro i
    cases array <;> rfl
  simp only [StackModel.placeholders, List.map_map, Function.comp_def, hpart]
  apply List.ext_getElem
  · simp [h]
  · intro i h₁ h₂
    rw [List.getElem_map, List.getElem_range, ← slotOf_arraysOf I width, slotOf,
      List.getD_eq_getElem?_getD, List.getElem?_eq_getElem h₂, Option.getD_some]

theorem eval_nothing (slot : StackArray → Nat → V) (array : StackArray) :
    I.eval slot (Slot.nothing.part array) = I.nothing array := by
  cases array <;> rfl

theorem arraysOf_drop {n : Nat} (hn : n ≤ stack.length) (hw : stack.length ≤ width)
    (array : StackArray) :
    (I.arraysOf width stack array).drop n ++ List.replicate n (I.nothing array) =
      I.arraysOf width (stack.drop n) array := by
  have hcount : width - stack.length + n = width - (stack.drop n).length := by
    rw [List.length_drop]
    omega
  rw [arraysOf, List.drop_append_of_le_length (by simpa using hn), List.append_assoc,
    List.replicate_append_replicate, hcount, ← List.map_drop, arraysOf]

theorem arraysOf_cons (hw : stack.length < width) (v : V × V) (array : StackArray) :
    part array v :: (I.arraysOf width stack array).dropLast =
      I.arraysOf width (v :: stack) array := by
  obtain ⟨k, hk⟩ : ∃ k, width - stack.length = k + 1 := ⟨width - stack.length - 1, by omega⟩
  have hk' : width - (v :: stack).length = k := by
    rw [List.length_cons]
    omega
  rw [arraysOf, arraysOf, hk, hk', List.replicate_succ', ← List.append_assoc, List.dropLast_concat]
  rfl

/-- **The slots after a macro, evaluated in the stack before it, are the stack after it.** -/
theorem map_eval_slotsAfter {op : MacroOp} (hpops : op.effect.pops ≤ stack.length)
    (hw : stack.length ≤ width) (hw' : (I.stackStep stack op).length ≤ width)
    (array : StackArray) :
    (StackModel.slotsAfter width op).map
      (fun slot => I.eval (I.stackSlot stack) (slot.part array)) =
        I.arraysOf width (I.stackStep stack op) array := by
  have hkept : ((StackModel.placeholders width).slots.drop op.effect.pops ++
      List.replicate op.effect.pops Slot.nothing).map
        (fun slot => I.eval (I.stackSlot stack) (slot.part array)) =
          I.arraysOf width (stack.drop op.effect.pops) array := by
    rw [List.map_append, List.map_drop, map_eval_placeholders hw, List.map_replicate, eval_nothing,
      arraysOf_drop hpops hw]
  -- A pushed slot drops the last one, which is empty because the stack is not that deep.
  unfold StackModel.slotsAfter stackStep at *
  cases hp : op.pushed? with
  | none => exact hkept
  | some pushed =>
    obtain ⟨type, size⟩ := pushed
    simp only [hp, List.length_cons] at hw'
    simp only [List.map_cons, List.map_dropLast, hkept]
    rw [← arraysOf_cons hw']
    cases array <;> rfl

/-! ### Running the assignments -/

theorem assembleFrom_append (arrays : StackArray → List V) (es es' : List Entry) :
    I.assembleFrom arrays (es ++ es') =
      (I.assembleFrom arrays es).bind (I.assembleFrom · es') := by
  fun_induction assembleFrom I arrays es with
  | case1 => rfl
  | case2 arrays array elements es ih =>
    rw [List.cons_append, assembleFrom, Option.bind_assoc]
    exact congrArg _ (funext fun a => ih a)
  | case3 arrays e es he ih =>
    rw [List.cons_append, assembleFrom, ih]
    exact he

section Setters

variable {op : MacroOp} (hpops : op.effect.pops ≤ stack.length) (hw : stack.length ≤ width)
  (hw' : (I.stackStep stack op).length ≤ width) (hpush : op.pushed?.isSome → 0 < width)

include hpops hw hw' hpush

/-- The sizes are evaluated in the arrays before the macro. -/
theorem assign_sizes :
    I.assign (I.arraysOf width stack) .sizeOf ((StackModel.slotsAfter width op).map (·.size)) =
      some fun k => I.arraysOf width (if k = .sizeOf then I.stackStep stack op else stack) k := by
  rw [assign, if_pos]
  · congr 1
    funext k
    split
    · rename_i hk
      rw [hk, slotOf_arraysOf, List.map_map, ← map_eval_slotsAfter hpops hw hw' .sizeOf]
      rfl
    · rfl
  · intro e he r hr
    obtain ⟨slot, hslot, rfl⟩ := List.mem_map.1 he
    rw [length_arraysOf hw]
    exact StackModel.reads_slotsAfter (Nat.le_trans hpops hw) hpush hslot .sizeOf r hr

/-- The types are evaluated after the sizes have been assigned, which they do not read. -/
theorem assign_types :
    I.assign (fun k => I.arraysOf width (if k = .sizeOf then I.stackStep stack op else stack) k)
        .typeOf ((StackModel.slotsAfter width op).map (·.type)) =
      some (I.arraysOf width (I.stackStep stack op)) := by
  have hreads : ∀ slot ∈ StackModel.slotsAfter width op, ∀ r ∈ slot.type.reads, r.1 = .typeOf :=
    fun _ h => StackModel.reads_type_slotsAfter h
  rw [assign, if_pos]
  · congr 1
    funext k
    cases k with
    | sizeOf => rfl
    | typeOf =>
      rw [if_pos rfl, List.map_map, ← map_eval_slotsAfter hpops hw hw' .typeOf]
      refine List.map_congr_left fun slot hslot => eval_congr fun r hr => ?_
      rw [hreads slot hslot r hr, ← slotOf_arraysOf I width]
      rfl
  · intro e he r hr
    obtain ⟨slot, hslot, rfl⟩ := List.mem_map.1 he
    rw [hreads slot hslot r hr]
    rw [if_neg (by decide), length_arraysOf hw]
    exact StackModel.reads_slotsAfter (Nat.le_trans hpops hw) hpush hslot .typeOf r hr

/-- **Both arrays hold the stack after the assignments that follow a macro.** -/
theorem assemble_setters :
    I.assembleFrom (I.arraysOf width stack)
      (StackModel.setters ⟨StackModel.slotsAfter width op⟩) =
        some (I.arraysOf width (I.stackStep stack op)) := by
  rw [StackModel.setters, assembleFrom, assign_sizes hpops hw hw' hpush, Option.bind_some,
    assembleFrom, assign_types hpops hw hw' hpush, Option.bind_some, assembleFrom]

end Setters

/-! ### Pieces of a stream -/

/-- An entry of two lists in a row is in the first or in the second. -/
theorem split_append {es es' before after : List Entry} {e : Entry}
    (h : es ++ es' = before ++ e :: after) :
    (∃ c, es = before ++ e :: c) ∨ ∃ c, before = es ++ c ∧ es' = c ++ e :: after := by
  rcases List.append_eq_append_iff.1 h with ⟨c, hb, hes⟩ | ⟨c, hes, hc⟩
  · exact .inr ⟨c, hb, hes⟩
  · cases c with
    | nil =>
      refine .inr ⟨[], ?_, ?_⟩
      · rw [hes, List.append_nil, List.append_nil]
      · rw [← List.nil_append es', ← hc]
        rfl
    | cons e' c =>
      obtain ⟨rfl, -⟩ := List.cons.inj hc
      exact .inl ⟨c, hes⟩

variable (I) in
/-- A piece of a stream during which the arrays hold the stack. -/
structure Keeps (width : Nat) (stack : List (V × V)) (es : List Entry) : Prop where
  /-- Every assignment is as wide as the arrays and stays inside of them. -/
  inside : ∀ array elements, .directive (.arrayLet array elements) ∈ es →
    elements.length = width ∧ ∀ e ∈ elements, ∀ r ∈ e.reads, r.2 < width
  before_op : ∀ before e after, es = before ++ e :: after → e.op?.isSome →
    I.assembleFrom (I.arraysOf width stack) before =
      some (I.arraysOf width (I.stackFrom stack before))
  at_end : I.assembleFrom (I.arraysOf width stack) es =
    some (I.arraysOf width (I.stackFrom stack es))

theorem stackFrom_append (stack : List (V × V)) (es es' : List Entry) :
    I.stackFrom stack (es ++ es') = I.stackFrom (I.stackFrom stack es) es' := by
  simp only [stackFrom, List.filterMap_append, List.foldl_append]

theorem stackFrom_none {e : Entry} (hop : e.op? = none) (stack : List (V × V)) :
    I.stackFrom stack [e] = stack := by
  rw [stackFrom, List.filterMap_cons_none hop]
  rfl

theorem stackFrom_some {e : Entry} {op : MacroOp} (hop : e.op? = some op)
    (stack : List (V × V)) : I.stackFrom stack [e] = I.stackStep stack op := by
  rw [stackFrom, List.filterMap_cons_some hop]
  rfl

theorem Keeps.nil : I.Keeps width stack [] where
  inside := by simp
  before_op := by simp
  at_end := rfl

theorem Keeps.append {es es' : List Entry} (h : I.Keeps width stack es)
    (h' : I.Keeps width (I.stackFrom stack es) es') : I.Keeps width stack (es ++ es') where
  inside array elements hmem := by
    rcases List.mem_append.1 hmem with hmem | hmem
    · exact h.inside array elements hmem
    · exact h'.inside array elements hmem
  before_op before e after hsplit he := by
    rcases split_append hsplit with ⟨c, hes⟩ | ⟨c, rfl, hes'⟩
    · exact h.before_op before e c hes he
    · rw [assembleFrom_append, h.at_end, stackFrom_append]
      exact h'.before_op c e after hes' he
  at_end := by
    rw [assembleFrom_append, h.at_end, stackFrom_append]
    exact h'.at_end

theorem length_stackStep (stack : List (V × V)) (op : MacroOp) :
    (I.stackStep stack op).length = StackModel.depthAfter stack.length op := by
  rw [StackModel.depthAfter, MacroOp.pushes_eq_length, stackStep]
  cases op.pushed? <;> simp

/-- An entry that is no macro and no assignment leaves arrays and stack alone. -/
theorem Keeps.single {e : Entry} (hop : e.op? = none) (hlet : e.isArrayLet = false) :
    I.Keeps width stack [e] where
  inside array elements hmem := by
    cases List.mem_singleton.1 hmem
    cases hlet
  before_op before e' after hsplit he := by
    have hmem : e' ∈ [e] := hsplit ▸ List.mem_append_right _ (List.mem_cons_self ..)
    rw [List.mem_singleton.1 hmem, hop] at he
    cases he
  at_end := by
    rw [assembleFrom, assembleFrom, stackFrom, List.filterMap_cons_none hop]
    · rfl
    · rintro array elements rfl
      cases hlet

theorem assembleFrom_invoke {e : Entry} {op : MacroOp} (hop : e.op? = some op)
    (arrays : StackArray → List V) (es : List Entry) :
    I.assembleFrom arrays (e :: es) = I.assembleFrom arrays es := by
  rw [assembleFrom]
  rintro array elements rfl
  cases hop

/-- A macro, and after it assignments by which the arrays follow it. -/
theorem Keeps.invoke {e : Entry} {op : MacroOp} (hop : e.op? = some op) {sets : List Entry}
    (hsets : ∀ x ∈ sets, ∃ array elements, x = .directive (.arrayLet array elements) ∧
      elements.length = width ∧ ∀ e ∈ elements, ∀ r ∈ e.reads, r.2 < width)
    (h : I.assembleFrom (I.arraysOf width stack) sets =
      some (I.arraysOf width (I.stackStep stack op))) :
    I.Keeps width stack (e :: sets) ∧ (e :: sets).filter (!·.isArrayLet) = [e] ∧
      I.stackFrom stack (e :: sets) = I.stackStep stack op := by
  have hlet : ∀ x ∈ sets, x.isArrayLet = true ∧ x.op? = none := by
    intro x hx
    obtain ⟨array, elements, rfl, -⟩ := hsets x hx
    exact ⟨rfl, rfl⟩
  have hnot : e.isArrayLet = false := by
    cases e with
    | invoke => rfl
    | _ => cases hop
  have hstack : I.stackFrom stack (e :: sets) = I.stackStep stack op := by
    rw [stackFrom, List.filterMap_cons_some hop,
      List.filterMap_eq_nil_iff.2 fun x hx => (hlet x hx).2]
    rfl
  refine ⟨⟨fun array elements hmem => ?_, fun before e' after hsplit he => ?_, ?_⟩, ?_, hstack⟩
  · rcases List.mem_cons.1 hmem with rfl | hmem
    · cases hop
    · obtain ⟨array', elements', heq, hin⟩ := hsets _ hmem
      cases heq
      exact hin
  · cases before with
    | nil => rfl
    | cons x before =>
      obtain ⟨-, rfl⟩ := List.cons.inj hsplit
      rw [(hlet e' (List.mem_append_right _ (List.mem_cons_self ..))).2] at he
      cases he
  · rw [assembleFrom_invoke hop, h, hstack]
  · have hnil : sets.filter (!·.isArrayLet) = [] :=
      List.filter_eq_nil_iff.2 fun x hx => by simp [(hlet x hx).1]
    rw [List.filter_cons, hnot, hnil]
    rfl

/-- A macro and what `annotate` puts after it. -/
theorem exists_annotate_invoke {e : Entry} {op : MacroOp} (hop : e.op? = some op)
    (hpops : op.effect.pops ≤ stack.length) (hw : stack.length ≤ width)
    (hw' : (I.stackStep stack op).length ≤ width) :
    ∃ piece, (StackModel.placeholders width).annotate e = .ok piece ∧
      I.Keeps width stack piece ∧ piece.filter (!·.isArrayLet) = [e] ∧
      I.stackFrom stack piece = I.stackStep stack op := by
  have hpush : op.pushed?.isSome → 0 < width := by
    intro hp
    obtain ⟨pushed, hp⟩ := Option.isSome_iff_exists.1 hp
    rw [length_stackStep, StackModel.depthAfter, MacroOp.pushes_eq_length, hp] at hw'
    simp only [Option.toList_some, List.length_singleton] at hw'
    omega
  have happly := StackModel.apply_placeholders (Nat.le_trans hpops hw) hpush
  rw [StackModel.annotate, hop]
  simp only [happly, bind, Except.bind, pure, Except.pure]
  refine ⟨_, rfl, ?_⟩
  split
  · refine Keeps.invoke hop (fun x hx => ?_) (assemble_setters hpops hw hw' hpush)
    have hin : ∀ array, ((StackModel.slotsAfter width op).map (Slot.part array)).length = width ∧
        ∀ e ∈ (StackModel.slotsAfter width op).map (Slot.part array), ∀ r ∈ e.reads,
          r.2 < width := by
      intro array
      refine ⟨?_, fun e he r hr => ?_⟩
      · rw [List.length_map, StackModel.length_slotsAfter (Nat.le_trans hpops hw) hpush]
      · obtain ⟨slot, hslot, rfl⟩ := List.mem_map.1 he
        exact StackModel.reads_slotsAfter (Nat.le_trans hpops hw) hpush hslot array r hr
    rcases List.mem_pair.1 hx with rfl | rfl
    · exact ⟨_, _, rfl, hin .sizeOf⟩
    · exact ⟨_, _, rfl, hin .typeOf⟩
  · -- The slots after the macro are the placeholders: the arrays hold the stack after it already.
    rename_i hclean
    refine Keeps.invoke hop (by simp) ?_
    have hslots : StackModel.slotsAfter width op = (StackModel.placeholders width).slots := by
      simp only [StackModel.isDirty, StackModel.width, decide_eq_true_eq, ne_eq,
        Decidable.not_not, StackModel.length_slotsAfter (Nat.le_trans hpops hw) hpush] at hclean
      exact congrArg StackModel.slots hclean
    rw [assembleFrom]
    congr 1
    funext array
    rw [← map_eval_slotsAfter hpops hw hw', hslots, map_eval_placeholders hw]

theorem exists_annotate {e : Entry} (hlet : e.isArrayLet = false)
    (hpops : ∀ op, e.op? = some op → op.effect.pops ≤ stack.length)
    (hw : stack.length ≤ width) (hw' : (I.stackFrom stack [e]).length ≤ width) :
    ∃ piece, (StackModel.placeholders width).annotate e = .ok piece ∧
      I.Keeps width stack piece ∧ piece.filter (!·.isArrayLet) = [e] ∧
      I.stackFrom stack piece = I.stackFrom stack [e] := by
  cases hop : e.op? with
  | none =>
    refine ⟨[e], ?_, .single hop hlet, ?_, rfl⟩
    · rw [StackModel.annotate, hop]
    · rw [List.filter_singleton, hlet]
      rfl
  | some op =>
    rw [stackFrom_some hop] at hw' ⊢
    exact exists_annotate_invoke hop (hpops op hop) hw hw'

theorem le_maxDepthFrom (depth : Nat) (ops : List MacroOp) :
    depth ≤ StackModel.maxDepthFrom depth ops := by
  cases ops with
  | nil => exact Nat.le_refl _
  | cons op ops => exact Nat.le_max_left _ _

/-- The greatest depth is that of the stack now or a later one. -/
theorem maxDepthFrom_cons (stack : List (V × V)) (e : Entry) (es : List Entry) :
    StackModel.maxDepthFrom stack.length ((e :: es).filterMap (·.op?)) =
      max stack.length
        (StackModel.maxDepthFrom (I.stackFrom stack [e]).length (es.filterMap (·.op?))) := by
  cases hop : e.op? with
  | none =>
    rw [List.filterMap_cons_none hop, stackFrom_none hop]
    exact (Nat.max_eq_right (le_maxDepthFrom _ _)).symm
  | some op => rw [List.filterMap_cons_some hop, stackFrom_some hop, length_stackStep,
      StackModel.maxDepthFrom]

/-- The annotated rest of a stream. -/
theorem exists_mapM_annotate {es : List Entry} (hlet : ∀ e ∈ es, e.isArrayLet = false)
    (hpops : ∀ before e after op, es = before ++ e :: after → e.op? = some op →
      op.effect.pops ≤ (I.stackFrom stack before).length)
    (hdepth : StackModel.maxDepthFrom stack.length (es.filterMap (·.op?)) ≤ width) :
    ∃ pieces, es.mapM (StackModel.placeholders width).annotate = .ok pieces ∧
      I.Keeps width stack pieces.flatten ∧ pieces.flatten.filter (!·.isArrayLet) = es := by
  -- Induction on the stream, with the stack that is there; the depths that are to come bound it.
  induction es generalizing stack with
  | nil => exact ⟨[], rfl, .nil, rfl⟩
  | cons e es ih =>
    rw [maxDepthFrom_cons (I := I), Nat.max_le] at hdepth
    obtain ⟨piece, hpiece, hkeeps, hfilter, hstack⟩ := exists_annotate
      (hlet e (List.mem_cons_self ..)) (fun op hop => hpops [] e es op rfl hop) hdepth.1
      (Nat.le_trans (le_maxDepthFrom _ _) hdepth.2)
    have hpops' : ∀ before x after op, es = before ++ x :: after → x.op? = some op →
        op.effect.pops ≤ (I.stackFrom (I.stackFrom stack [e]) before).length := by
      intro before x after op hsplit hop
      have := hpops (e :: before) x after op (by rw [hsplit]; rfl) hop
      rwa [← List.singleton_append, stackFrom_append] at this
    obtain ⟨pieces, hpieces, hkeeps', hfilter'⟩ := ih
      (fun x hx => hlet x (List.mem_cons_of_mem _ hx)) hpops' hdepth.2
    refine ⟨piece :: pieces, ?_, ?_, ?_⟩
    · rw [List.mapM_cons, hpiece, hpieces]
      rfl
    · rw [List.flatten_cons]
      exact hkeeps.append (hstack ▸ hkeeps')
    · rw [List.flatten_cons, List.filter_append, hfilter, hfilter', List.singleton_append]

theorem assign_nothing (arrays : StackArray → List V) (array : StackArray) (width : Nat) :
    I.assign arrays array (List.replicate width (Slot.nothing.part array)) =
      some fun k => if k = array then List.replicate width (I.nothing array) else arrays k := by
  rw [assign, if_pos, List.map_replicate, eval_nothing]
  intro e he r hr
  rw [List.eq_of_mem_replicate he] at hr
  cases array <;> cases hr

/-- The assignments at the start of a stream. -/
theorem initialization_eq (width : Nat) :
    (StackModel.placeholders width).initialization = if width = 0 then [] else
      [.directive (.arrayLet .sizeOf (List.replicate width (Slot.nothing.part .sizeOf))),
       .directive (.arrayLet .typeOf (List.replicate width (Slot.nothing.part .typeOf)))] := by
  have hempty : ((StackModel.placeholders width).slots.isEmpty = true) = (width = 0) := by
    rw [List.isEmpty_iff, ← List.length_eq_zero_iff, StackModel.length_placeholders]
  simp only [StackModel.initialization, hempty, StackModel.setters, List.map_const',
    StackModel.length_placeholders, List.map_replicate]
  rfl

theorem of_mem_initialization {width : Nat} {x : Entry}
    (h : x ∈ (StackModel.placeholders width).initialization) :
    ∃ array, x = .directive (.arrayLet array (List.replicate width (Slot.nothing.part array))) := by
  rw [initialization_eq] at h
  split at h
  · cases h
  · rcases List.mem_pair.1 h with rfl | rfl
    · exact ⟨.sizeOf, rfl⟩
    · exact ⟨.typeOf, rfl⟩

/-- The assignments at the start declare an empty stack. -/
theorem assemble_initialization (I : Interpretation V) (width : Nat) :
    I.assemble (StackModel.placeholders width).initialization = some (I.arraysOf width []) := by
  rw [initialization_eq, assemble]
  split
  · rename_i hw
    subst hw
    rw [assembleFrom]
    congr 1
  · rw [assembleFrom, assign_nothing, Option.bind_some, assembleFrom, assign_nothing,
      Option.bind_some, assembleFrom]
    congr 1
    funext k
    cases k <;> rfl

end Interpretation

namespace StackModel

variable {V : Type}

/-- **The arrays describe the operand stack.** Let no macro of a stream take more values than there
are, and let the stack never be deeper than 255 values. Then `track` succeeds and adds nothing but
assignments of both arrays, each as wide as the stack gets deep and with no index past that. Right
before every macro and at the end, whatever labels and functions mean, both arrays hold types and
sizes of the stack, the top first, with empty slots below. -/
theorem arrays_of_track (I : Interpretation V) (es : List Entry)
    (hlet : ∀ e ∈ es, e.isArrayLet = false)
    (hpops : ∀ before e after op, es = before ++ e :: after → e.op? = some op →
      op.effect.pops ≤ (I.stackAfter before).length)
    (hwidth : maxDepth es ≤ 255) :
    ∃ out, track es = .ok out ∧ out.filter (!·.isArrayLet) = es ∧
      (∀ array elements, .directive (.arrayLet array elements) ∈ out →
        elements.length = maxDepth es ∧ ∀ e ∈ elements, ∀ r ∈ e.reads, r.2 < maxDepth es) ∧
      (∀ before e after, out = before ++ e :: after → e.op?.isSome →
        I.assemble before = some (I.arraysOf (maxDepth es) (I.stackAfter before))) ∧
      I.assemble out = some (I.arraysOf (maxDepth es) (I.stackAfter out)) := by
  have hdepth : maxDepthFrom ([] : List (V × V)).length (es.filterMap (·.op?)) ≤ maxDepth es :=
    Nat.le_refl _
  obtain ⟨pieces, hpieces, hkeeps, hfilter⟩ :=
    Interpretation.exists_mapM_annotate hlet hpops hdepth
  have hstart := I.assemble_initialization (maxDepth es)
  have hnone : ∀ x ∈ (placeholders (maxDepth es)).initialization, x.op? = none := by
    intro x hx
    obtain ⟨array, rfl⟩ := Interpretation.of_mem_initialization hx
    rfl
  have hstack : ∀ rest, I.stackAfter ((placeholders (maxDepth es)).initialization ++ rest) =
      I.stackAfter rest := by
    intro rest
    rw [Interpretation.stackAfter, Interpretation.stackFrom, List.filterMap_append,
      List.filterMap_eq_nil_iff.2 hnone, List.nil_append]
    rfl
  have hassemble : ∀ rest, I.assemble ((placeholders (maxDepth es)).initialization ++ rest) =
      I.assembleFrom (I.arraysOf (maxDepth es) []) rest := by
    intro rest
    rw [Interpretation.assemble, Interpretation.assembleFrom_append, ← Interpretation.assemble,
      hstart, Option.bind_some]
  refine ⟨(placeholders (maxDepth es)).initialization ++ pieces.flatten, ?_, ?_, ?_, ?_, ?_⟩
  · rw [track, ofWidth, if_pos (show maxDepth es ≤ maxWidth from hwidth)]
    simp only [bind, Except.bind, hpieces, pure, Except.pure]
  · rw [List.filter_append, hfilter, List.filter_eq_nil_iff.2, List.nil_append]
    intro x hx
    obtain ⟨array, rfl⟩ := Interpretation.of_mem_initialization hx
    exact Bool.false_ne_true
  · intro array elements hmem
    rcases List.mem_append.1 hmem with hmem | hmem
    · obtain ⟨array', heq⟩ := Interpretation.of_mem_initialization hmem
      cases heq
      refine ⟨List.length_replicate, fun e he r hr => ?_⟩
      rw [List.eq_of_mem_replicate he] at hr
      cases array <;> cases hr
    · exact hkeeps.inside array elements hmem
  · -- No macro stands among the assignments at the start.
    intro before e after hsplit he
    rcases Interpretation.split_append hsplit with ⟨c, hc⟩ | ⟨c, rfl, hc⟩
    · rw [hnone e (hc ▸ List.mem_append_right _ (List.mem_cons_self ..))] at he
      cases he
    · rw [hassemble, hstack]
      exact hkeeps.before_op c e after hc he
  · rw [hassemble, hstack]
    exact hkeeps.at_end

/-- Doubling a literal, with every type and size taken for its text. -/
theorem arrays_of_track_double :
    let I : Interpretation String :=
      ⟨Label.text, Constant.text, fun f args => f ++ ", ".intercalate args⟩
    let es : List Entry :=
      [.synthetic (.pushConstant (.byte 7) (.type .byte) (.size .byte)), .synthetic .duplicate,
       .comment "twice", .synthetic .addFromStack, .synthetic .popStack]
    maxDepth es = 2 ∧ ∃ out, track es = .ok out ∧ out.filter (!·.isArrayLet) = es ∧
      ∀ before after, out = before ++ .synthetic .popStack :: after →
        I.assemble before = some (I.arraysOf 2 (I.stackAfter before)) := by
  intro I es
  have hlet : ∀ e ∈ es, e.isArrayLet = false := by decide
  have hpops : ∀ before e after op, es = before ++ e :: after → e.op? = some op →
      op.effect.pops ≤ (I.stackAfter before).length := by
    intro before e after op hsplit he
    simp only [es] at hsplit
    rcases before with _ | ⟨b₁, _ | ⟨b₂, _ | ⟨b₃, _ | ⟨b₄, _ | ⟨b₅, before⟩⟩⟩⟩⟩
    case cons.cons.cons.cons.cons => simp at hsplit
    all_goals
      cases hsplit
      cases he <;> decide
  obtain ⟨out, hout, hfilter, -, hbefore, -⟩ := arrays_of_track I es hlet hpops (by decide)
  exact ⟨rfl, out, hout, hfilter, fun before after h => hbefore before _ after h rfl⟩

end StackModel

end Cartridge
