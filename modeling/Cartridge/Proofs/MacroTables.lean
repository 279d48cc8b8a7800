import Cartridge.Proofs.FlowGraph.Blocks
import Cartridge.Proofs.Program.Closed
import Cartridge.Proofs.StackArrays

/-!
# The tables of the macros agree

What a macro refers to, what it does to the operand stack and where it may jump to are read off in
separate tables, one line per macro. Other parts rely on the tables saying the same: a label in an
operand that is not among `MacroOp.labels` never gets a value, and a value that is pushed but not
described by `MacroOp.pushed?` is missing in the arrays of the operand stack.

**`MacroOp.tablesAgree`**: they do, for every macro and whatever its operands
(`MacroOp.TablesAgree`).
-/

namespace Cartridge

/-! ### Labels of expressions -/

namespace Expression

/-- A label stands somewhere in an expression. -/
inductive Mentions (l : Label) : Expression → Prop where
  | label : Mentions l (.label l)
  | arg {function : String} {args : List Expression} {e : Expression} :
      e ∈ args → Mentions l e → Mentions l (.call function args)

variable {l : Label}

mutual

theorem mem_labels_iff : ∀ {e : Expression}, l ∈ e.labels ↔ e.Mentions l
  | .label k => by
    rw [labels, List.mem_singleton]
    constructor
    · rintro rfl
      exact .label
    · rintro ⟨⟩
      rfl
  | .constant _ | .slot .. => ⟨nofun, nofun⟩
  | .call function args => by
    rw [labels, mem_labelsList_iff]
    constructor
    · rintro ⟨e, he, h⟩
      exact .arg he h
    · rintro ⟨⟩
      exact ⟨_, ‹_›, ‹_›⟩

theorem mem_labelsList_iff : ∀ {es : List Expression}, l ∈ labelsList es ↔ ∃ e ∈ es, e.Mentions l
  | [] => ⟨nofun, nofun⟩
  | e :: es => by
    rw [labelsList, List.mem_append, mem_labels_iff, mem_labelsList_iff, List.exists_mem_cons_iff]

end

end Expression

namespace MacroOp

/-! ### Slots that are read -/

/-- The slots that type and size of the pushed value are read from. -/
def slotsRead (op : MacroOp) : List (StackArray × Nat) :=
  op.pushed?.toList.flatMap fun value => value.1.reads ++ value.2.reads

/-- The slots that the type of the pushed value is read from. -/
def typeSlotsRead (op : MacroOp) : List (StackArray × Nat) :=
  op.pushed?.toList.flatMap fun value => value.1.reads

variable {op : MacroOp} {r : StackArray × Nat}

theorem lt_max_of_mem_slotsRead (h : r ∈ op.slotsRead) : r.2 < max op.effect.pops 1 := by
  obtain ⟨⟨type, size⟩, hpushed, hr⟩ := List.mem_flatMap.1 h
  exact reads_pushed (Option.mem_toList.1 hpushed) r hr

/-- A macro that takes nothing knows the type and the size of what it pushes. -/
theorem slotsRead_eq_nil (hop : op ≠ .duplicate) (hpops : op.effect.pops = 0) :
    op.slotsRead = [] := by
  cases op <;> first | rfl | exact (hop rfl).elim | cases hpops

theorem lt_pops_of_mem_slotsRead (hop : op ≠ .duplicate) (h : r ∈ op.slotsRead) :
    r.2 < op.effect.pops := by
  have hpops : op.effect.pops ≠ 0 := fun hpops => by
    rw [slotsRead_eq_nil hop hpops] at h
    cases h
  have := lt_max_of_mem_slotsRead h
  omega

theorem typeOf_of_mem_typeSlotsRead (h : r ∈ op.typeSlotsRead) : r.1 = .typeOf := by
  obtain ⟨⟨type, size⟩, hpushed, hr⟩ := List.mem_flatMap.1 h
  exact reads_pushedType (Option.mem_toList.1 hpushed) r hr

theorem isSome_pushed?_iff : op.pushed?.isSome ↔ op.effect.pushes = 1 := by
  rw [pushes_eq_length]
  cases op.pushed? <;> simp

theorem pushes_le_one (op : MacroOp) : op.effect.pushes ≤ 1 := by
  rw [pushes_eq_length]
  exact Option.length_toList_le

/-! ### Agreement -/

/-- The tables of a macro say the same. -/
structure TablesAgree (op : MacroOp) : Prop where
  /-- The labels that are reported are those of the operands, in order. -/
  labels_eq (sources : List Instruction) :
    (Entry.invoke ⟨op, sources⟩).labels = op.parameters.flatMap (·.labels)
  mem_labels_iff (l : Label) : l ∈ op.labels ↔ ∃ e ∈ op.parameters, e.Mentions l
  /-- A value is described iff one is pushed. -/
  pushed_iff : op.pushed?.isSome ↔ op.effect.pushes = 1
  pushes_le : op.effect.pushes ≤ 1
  /-- Only slots that the macro takes are read, but for the top slot, which `duplicate` leaves. -/
  taken : op ≠ .duplicate → ∀ r ∈ op.slotsRead, r.2 < op.effect.pops
  duplicated : op = .duplicate → op.slotsRead = [(.typeOf, 0), (.sizeOf, 0)]
  /-- Types do not depend on sizes. -/
  types : ∀ r ∈ op.typeSlotsRead, r.1 = .typeOf
  jumps : op.branchTarget?.isSome → op.endsBlock

/-- **The tables of every macro agree.** -/
theorem tablesAgree (op : MacroOp) : op.TablesAgree where
  labels_eq _ := (labels_parameters op).symm
  mem_labels_iff l := by
    rw [← labels_parameters, List.mem_flatMap]
    simp only [Expression.mem_labels_iff]
  pushed_iff := isSome_pushed?_iff
  pushes_le := pushes_le_one op
  taken hop _ := lt_pops_of_mem_slotsRead hop
  duplicated := by
    rintro rfl
    rfl
  types _ := typeOf_of_mem_typeSlotsRead
  jumps h := by
    obtain ⟨l, hl⟩ := Option.isSome_iff_exists.1 h
    exact endsBlock_of_branchTarget? hl

theorem tablesAgree_subFromStack :
    (.typeOf, 1) ∈ subFromStack.slotsRead ∧ 1 < subFromStack.effect.pops :=
  ⟨by decide, (tablesAgree .subFromStack).taken (by decide) (.typeOf, 1) (by decide)⟩

end MacroOp

end Cartridge
