import Cartridge.Proofs.Descent
import Cartridge.Proofs.Selection
import Mathlib.Tactic.Common

/-!
# Calls that are inlined

`Instruction.Inlines` says which calls are replaced by the body of their callee. Such a call is the
only instruction that asks for the body of a method (`Site.select_of_inlines`). Any other instruction
becomes the same entries whatever the bodies of other methods are (`Site.select_congr`), and never
fails because a method would be inlined into itself (`Site.noRecursion_select`).
-/

namespace Cartridge

/-- The instruction is a call that the body of its callee replaces: the callee is marked so, or it
has no marker and all calls are inlined. -/
def Instruction.Inlines (ctx : Context) (i : Instruction) (callee : Member) : Prop :=
  i.opcode = .call ∧ i.operand = .method callee ∧
    ∃ d, ctx.program.findMethod callee = .ok d ∧
      (d.marker = some .alwaysInline ∨ d.marker = none ∧ ctx.options.inlineAllCalls = true)

/-! ### Failures -/

/-- The computation does not fail because a method would be inlined into itself. -/
def NoRecursion {α : Type} (x : Except Error α) : Prop :=
  ∀ name chain, x ≠ .error (.recursiveInline name chain)

section NoRecursion

variable {α β : Type} {x : Except Error α} {f : α → Except Error β}

theorem noRecursion_ok (a : α) : NoRecursion (.ok a) := fun _ _ h => by cases h

theorem noRecursion_error {e : Error} (he : ∀ name chain, e ≠ .recursiveInline name chain) :
    NoRecursion (.error e : Except Error α) := fun name chain h =>
  he name chain (Except.error.inj h)

theorem noRecursion_bind (hx : NoRecursion x) (hf : ∀ a, x = .ok a → NoRecursion (f a)) :
    NoRecursion (x >>= f) := by
  intro name chain h
  cases x with
  | error e =>
    cases h
    exact hx name chain rfl
  | ok a => exact hf a rfl name chain h

end NoRecursion

namespace Universe

variable (u : Universe)

theorem noRecursion_findMethod (m : Member) : NoRecursion (u.findMethod m) := by
  intro name chain h
  unfold findMethod at h
  split at h <;> cases h

theorem noRecursion_findField (f : Member) : NoRecursion (u.findField f) := by
  intro name chain h
  unfold findField at h
  split at h <;> cases h

theorem noRecursion_findType (t : TypeName) : NoRecursion (u.findType t) := by
  intro name chain h
  simp only [findType] at h
  split at h <;> cases h

end Universe

/-! ### Layouts -/

namespace LayoutTable

/-- A query that does not fail so, whatever the table holds. -/
def Harmless {α : Type} (q : Query α) : Prop := ∀ table, NoRecursion (q.run.run table).1

variable {α β : Type}

theorem harmless_pure (a : α) : Harmless (pure a) := fun _ => noRecursion_ok a

theorem harmless_throw {e : Error} (he : ∀ name chain, e ≠ .recursiveInline name chain) :
    Harmless (throw e : Query α) := fun _ => noRecursion_error he

theorem harmless_bind {q : Query α} {f : α → Query β} (hq : Harmless q)
    (hf : ∀ a, Harmless (f a)) : Harmless (q >>= f) := by
  intro table
  have hfirst := hq table
  simp only [ExceptT.run, StateT.run, bind, ExceptT.bind, ExceptT.mk, StateT.bind] at hfirst ⊢
  cases hrun : q table with
  | mk result next =>
    rw [hrun] at hfirst
    cases result with
    | ok a => exact hf a next
    | error e =>
      intro name chain h
      cases h
      exact hfirst name chain rfl

theorem harmless_placeFields {sizeOf : TypeName → Query Nat} (h : ∀ t, Harmless (sizeOf t))
    (owner : TypeName) (fields : List FieldDecl) (offset : Nat) :
    Harmless (Layout.placeFields owner sizeOf offset fields) := by
  induction fields generalizing offset with
  | nil => exact harmless_pure _
  | cons f fields ih =>
    refine harmless_bind (h f.type) fun size => ?_
    split
    · exact harmless_bind (ih _) fun rest => harmless_pure _
    · exact harmless_throw nofun

theorem harmless_fieldSize {layoutOf : TypeName → Query TypeLayout} (h : ∀ t, Harmless (layoutOf t))
    (t : TypeName) : Harmless (Layout.fieldSize layoutOf t) := by
  unfold Layout.fieldSize
  split
  · exact harmless_pure _
  · exact harmless_bind (h t) fun layout => harmless_pure _

theorem harmless_build (u : Universe) {layoutOf : TypeName → Query TypeLayout}
    (h : ∀ t, Harmless (layoutOf t)) (t : TypeName) : Harmless (Layout.build u layoutOf t) := by
  unfold Layout.build
  split
  · rename_i e he
    refine harmless_throw fun name chain heq => u.noRecursion_findType t name chain ?_
    rw [he, heq]
  · split
    · exact harmless_pure _
    · exact harmless_bind (harmless_placeFields (harmless_fieldSize h) _ _ _) fun placed =>
        harmless_pure _

theorem harmless_remember {compute : Query TypeLayout} (h : Harmless compute) (t : TypeName) :
    Harmless (remember t compute) := by
  refine harmless_bind (fun _ => noRecursion_ok _) fun table => ?_
  split
  · exact harmless_pure _
  · exact harmless_bind h fun layout =>
      harmless_bind (fun _ => noRecursion_ok _) fun _ => harmless_pure _

theorem harmless_layoutOf (u : Universe) (t : TypeName) : Harmless (layoutOf u t) :=
  harmless_remember (descend_induction (fun _ _ => harmless_throw fun _ _ h => by cases h)
    (fun _ => harmless_throw fun _ _ h => by cases h)
    (fun _ _ t ih => harmless_build u (fun s => harmless_remember (ih s) s) t) [] t) t

end LayoutTable

theorem noRecursion_layoutOf (u : Universe) (t : TypeName) : NoRecursion (layoutOf u t) :=
  LayoutTable.harmless_layoutOf u t {}

theorem noRecursion_sizeOf (u : Universe) (t : TypeName) : NoRecursion (sizeOf u t) :=
  LayoutTable.harmless_fieldSize (LayoutTable.harmless_layoutOf u) t {}

/-! ### Operands -/

namespace Site

variable {s : Site} {i : Instruction}

theorem noRecursion_fault {α : Type} (reason : String) :
    NoRecursion (s.fault i reason : Except Error α) := nofun

theorem noRecursion_one (op : MacroOp) : NoRecursion (one i op) := noRecursion_ok _

theorem noRecursion_slot : NoRecursion (s.slot i) := by
  unfold slot
  split
  · exact noRecursion_ok _
  · exact noRecursion_ok _
  · exact noRecursion_ok _
  · split
    · exact noRecursion_ok _
    · exact noRecursion_fault _
  · exact noRecursion_fault _

theorem noRecursion_localSlot : NoRecursion (s.localSlot i) := by
  refine noRecursion_bind noRecursion_slot fun index _ => ?_
  split
  · exact noRecursion_ok _
  · exact noRecursion_fault _

theorem noRecursion_argument : NoRecursion (s.argument i) := by
  refine noRecursion_bind noRecursion_slot fun index _ => ?_
  split
  · exact noRecursion_ok _
  · exact noRecursion_fault _

theorem noRecursion_field : NoRecursion (s.field i) := by
  unfold field
  split
  · exact noRecursion_ok _
  · exact noRecursion_fault _

theorem noRecursion_staticField : NoRecursion (s.staticField i) := by
  refine noRecursion_bind noRecursion_field fun f _ =>
    noRecursion_bind (Universe.noRecursion_findField _ f) fun d _ => ?_
  split
  · exact noRecursion_ok _
  · exact noRecursion_fault _

theorem noRecursion_instanceField : NoRecursion (s.instanceField i) := by
  refine noRecursion_bind noRecursion_field fun f _ =>
    noRecursion_bind (noRecursion_layoutOf _ _) fun layout _ => ?_
  split
  · exact nofun
  · split
    · exact noRecursion_ok _
    · exact noRecursion_fault _

theorem noRecursion_type : NoRecursion (s.type i) := by
  unfold type
  split
  · exact noRecursion_ok _
  · exact noRecursion_fault _

theorem noRecursion_constant : NoRecursion (s.constant i) := by
  have hfit : ∀ value : Int, NoRecursion
      (if 0 ≤ value ∧ value < UInt8.size then pure (UInt8.ofNat value.toNat)
        else s.fault i ("constant " ++ toString value ++ " does not fit in a byte")) := by
    intro value
    split
    · exact noRecursion_ok _
    · exact noRecursion_fault _
  unfold constant
  split
  · exact hfit _
  · exact hfit _
  · exact noRecursion_fault _

theorem noRecursion_target : NoRecursion (s.target i) := by
  unfold target
  split
  · exact noRecursion_ok _
  · exact noRecursion_fault _

/-! ### Calls -/

theorem noRecursion_plainCall (callee : Member) (d : MethodDecl) :
    NoRecursion (plainCall i callee d) := by
  unfold plainCall
  split
  · exact nofun
  · split <;> exact noRecursion_one _

/-- A call that is not inlined does not fail because of the body of its callee. -/
theorem noRecursion_call (hop : i.opcode = .call) (h : ∀ c, ¬ i.Inlines s.context c) :
    NoRecursion (s.call i) := by
  unfold call
  split
  · rename_i callee hoperand
    refine noRecursion_bind (Universe.noRecursion_findMethod _ callee) fun d hfind => ?_
    have hnot : ¬ (d.marker = some .alwaysInline ∨
        d.marker = none ∧ s.context.options.inlineAllCalls = true) := fun hm =>
      h callee ⟨hop, hoperand, d, hfind, hm⟩
    split
    · exact noRecursion_ok _
    · split
      · exact noRecursion_one _
      · exact noRecursion_one _
      · exact nofun
    · split
      · exact nofun
      · exact noRecursion_one _
    · split
      · exact nofun
      · exact noRecursion_one _
    · exact noRecursion_ok _
    · rename_i hm
      exact absurd (.inl hm) hnot
    · rename_i hm
      split
      · rename_i hall
        exact absurd (.inr ⟨hm, hall⟩) hnot
      · exact noRecursion_plainCall _ _
  · exact noRecursion_fault _

theorem inlineCall_congr {s' : Site} {c : Member} (h : s.inline c = s'.inline c) (d : MethodDecl) :
    s.inlineCall i c d = s'.inlineCall i c d := by
  unfold inlineCall
  rw [h]

/-- An inlined call becomes the body of its callee. -/
theorem select_of_inlines {c : Member} (h : i.Inlines s.context c) :
    ∃ d, s.context.program.findMethod c = .ok d ∧ s.select i = s.inlineCall i c d := by
  obtain ⟨hop, hoperand, d, hfind, hm⟩ := h
  refine ⟨d, hfind, ?_⟩
  unfold select call
  rw [hop, hoperand]
  dsimp only
  rw [hfind]
  rcases hm with hm | ⟨hm, hall⟩
  · simp only [bind, Except.bind, hm]
  · simp only [bind, Except.bind, hm, hall, if_pos]

/-! ### Instructions -/

/-- An instruction that is not inlined does not fail because of the body of a method. -/
theorem noRecursion_select (h : ∀ c, ¬ i.Inlines s.context c) : NoRecursion (s.select i) := by
  unfold select
  cases hop : i.opcode
  case nop | convU1 | convU | convI => exact noRecursion_ok _
  case ldcM1 | ldc0 | ldc1 | ldc2 | ldc3 | ldc4 | ldc5 | ldc6 | ldc7 | ldc8 | ldcShort | ldc =>
    exact noRecursion_bind noRecursion_constant fun value _ => noRecursion_one _
  case ldstr =>
    dsimp only
    split
    · exact noRecursion_ok _
    · exact noRecursion_fault _
  case ldloc0 | ldloc1 | ldloc2 | ldloc3 | ldlocShort | ldloc | stloc0 | stloc1 | stloc2 | stloc3
      | stlocShort | stloc =>
    exact noRecursion_bind noRecursion_localSlot fun x _ => noRecursion_one _
  case ldlocaShort | ldloca =>
    exact noRecursion_bind noRecursion_localSlot fun x _ => noRecursion_ok _
  case ldarg0 | ldarg1 | ldarg2 | ldarg3 | ldargShort | ldarg =>
    exact noRecursion_bind noRecursion_argument fun x _ => noRecursion_one _
  case ldsfld | stsfld =>
    refine noRecursion_bind noRecursion_staticField fun x _ => ?_
    dsimp only
    split
    · exact noRecursion_fault _
    · exact noRecursion_one _
  case ldsflda =>
    refine noRecursion_bind noRecursion_staticField fun x _ => ?_
    dsimp only
    split <;> exact noRecursion_one _
  case ldfld | stfld | ldflda =>
    exact noRecursion_bind noRecursion_instanceField fun x _ => noRecursion_one _
  case ldobj | initobj => exact noRecursion_bind noRecursion_type fun t _ => noRecursion_one _
  case ldindU1 | stindI1 | add | sub | or | ceq | dup | pop => exact noRecursion_one _
  case br | brShort | brtrue | brtrueShort | brfalse | brfalseShort | blt | bltShort =>
    exact noRecursion_bind noRecursion_target fun l _ => noRecursion_one _
  case call => exact noRecursion_call hop h
  case ret =>
    dsimp only
    split <;> exact noRecursion_one _
  all_goals exact nofun

variable {u : Universe} {o o' : Options} {m : Member} {d : MethodDecl}
    {inline inline' : Member → Except Error Routine}

theorem call_congr (ho : o'.inlineAllCalls = o.inlineAllCalls) (hop : i.opcode = .call)
    (h : ∀ c, ¬ i.Inlines ⟨u, o⟩ c) :
    call ⟨⟨u, o'⟩, m, d, inline'⟩ i = call ⟨⟨u, o⟩, m, d, inline⟩ i := by
  unfold call
  split
  · rename_i callee hoperand
    cases hfind : u.findMethod callee with
    | error e => rfl
    | ok callee' =>
      have hnot : ¬ (callee'.marker = some .alwaysInline ∨
          callee'.marker = none ∧ o.inlineAllCalls = true) := fun hm =>
        h callee ⟨hop, hoperand, callee', hfind, hm⟩
      simp only [bind, Except.bind, ho]
      split
      all_goals first | rfl | skip
      · rename_i hm
        exact absurd (.inl hm) hnot
      · rename_i hm
        split
        · rename_i hall
          exact absurd (.inr ⟨hm, hall⟩) hnot
        · rfl
  · rfl

/-- What is not inlined becomes the same entries whatever the bodies of other methods are. -/
theorem select_congr (ho : o'.inlineAllCalls = o.inlineAllCalls)
    (h : ∀ c, ¬ i.Inlines ⟨u, o⟩ c) :
    select ⟨⟨u, o'⟩, m, d, inline'⟩ i = select ⟨⟨u, o⟩, m, d, inline⟩ i := by
  unfold select
  cases hop : i.opcode
  case call => exact call_congr ho hop h
  all_goals rfl

end Site

end Cartridge
