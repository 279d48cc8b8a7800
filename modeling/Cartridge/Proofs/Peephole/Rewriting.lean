import Cartridge.Peephole.Optimize
import Cartridge.Proofs.Outcome
import Mathlib.Logic.Relation

/-!
# Optimizing as rewriting

`Replaces` lists what each rule does to its window, one constructor per shape of the window, so that
a property of replacements is proved by cases. `Rewrites` is one replacement somewhere in a stream.
Whatever `optimize` returns comes from its input by such replacements
(`reflTransGen_of_optimize`), so that a property of streams which every replacement keeps is kept by
`optimize`. The labels that a stream defines are such a property (`definedLabels_of_rewrites`).

A stream without placeholders is never rejected (`exists_optimize_of_leftovers`).
-/

namespace Cartridge

namespace Rule

variable {u : Universe}

/-- What a rule puts in the place of which window. -/
inductive Replaces (u : Universe) : Rule → List Entry → List Entry → Prop where
  | inlineAssembly (i j : Instruction) (text : String) :
    Replaces u .inlineAssembly
      [.pending (.loadString i text), .pending (.inlineAssemblyCall j)]
      [.comment "Begin inline assembly", .inlineAssembly (Text.filledLines text),
        .comment "End inline assembly"]
  | romDataLength (field : Member) (type size : Label) (s : List Instruction) (i : Instruction)
      (shape : Nat × Nat) (length : UInt8) (hs : romShape u field i = .ok shape)
      (hl : fitByte field i "length" shape.1 = .ok length) :
    Replaces u .romDataLength
      [.invoke ⟨.pushAddressOfGlobal (.romData field) type size, s⟩,
        .pending (.romDataLengthCall i)]
      [.invoke ⟨.pushConstant (.byte length) (.type .byte) (.size .byte), s ++ [i]⟩]
  | romDataStride (field : Member) (type size : Label) (s : List Instruction) (i : Instruction)
      (shape : Nat × Nat) (stride : UInt8) (hs : romShape u field i = .ok shape)
      (hl : fitByte field i "stride" shape.2 = .ok stride) :
    Replaces u .romDataStride
      [.invoke ⟨.pushAddressOfGlobal (.romData field) type size, s⟩,
        .pending (.romDataStrideCall i)]
      [.invoke ⟨.pushConstant (.byte stride) (.type .byte) (.size .byte), s ++ [i]⟩]
  | romElementAtConstant (field : Member) (type size t₂ z₂ : Label) (index : Constant)
      (s₁ s₂ : List Instruction) (i : Instruction) :
    Replaces u .romElementAtConstant
      [.invoke ⟨.pushAddressOfGlobal (.romData field) type size, s₁⟩,
        .invoke ⟨.pushConstant index t₂ z₂, s₂⟩, .pending (.romDataGetterCall i)]
      [.invoke ⟨.pushAddressOfRomElement (.romData field) type (.pointerSize .long) index,
        s₁ ++ (s₂ ++ [i])⟩]
  | romElementFromStack (field : Member) (type size global t₂ z₂ : Label)
      (s₁ s₂ : List Instruction) (i : Instruction) :
    Replaces u .romElementFromStack
      [.invoke ⟨.pushAddressOfGlobal (.romData field) type size, s₁⟩,
        .invoke ⟨.pushGlobal global t₂ z₂, s₂⟩, .pending (.romDataGetterCall i)]
      [.invoke ⟨.pushGlobal global t₂ z₂, s₂⟩,
        .invoke ⟨.pushAddressOfRomElementFromStack (.romData field) type (.pointerSize .long),
          s₁ ++ [i]⟩]
  | assignConstantToGlobal (value : Constant) (t₁ z₁ global t₂ size : Label)
      (s₁ s₂ : List Instruction) :
    Replaces u .assignConstantToGlobal
      [.invoke ⟨.pushConstant value t₁ z₁, s₁⟩, .invoke ⟨.popToGlobal global t₂ size, s₂⟩]
      [.invoke ⟨.assignConstantToGlobal value global size, s₁ ++ s₂⟩]
  | copyGlobalToGlobal (source t₁ sourceSize target t₂ targetSize : Label)
      (s₁ s₂ : List Instruction) :
    Replaces u .copyGlobalToGlobal
      [.invoke ⟨.pushGlobal source t₁ sourceSize, s₁⟩,
        .invoke ⟨.popToGlobal target t₂ targetSize, s₂⟩]
      [.invoke ⟨.copyGlobalToGlobal source sourceSize target targetSize, s₁ ++ s₂⟩]
  | addGlobalFirst (global globalType globalSize : Label) (value : Constant)
      (constantType constantSize : Label) (s₁ s₂ s₃ : List Instruction) :
    Replaces u .addGlobalAndConstant
      [.invoke ⟨.pushGlobal global globalType globalSize, s₁⟩,
        .invoke ⟨.pushConstant value constantType constantSize, s₂⟩, .invoke ⟨.addFromStack, s₃⟩]
      [.invoke ⟨.addGlobalAndConstant global globalType globalSize value constantType constantSize,
        s₁ ++ s₂ ++ s₃⟩]
  | addConstantFirst (global globalType globalSize : Label) (value : Constant)
      (constantType constantSize : Label) (s₁ s₂ s₃ : List Instruction) :
    Replaces u .addGlobalAndConstant
      [.invoke ⟨.pushConstant value constantType constantSize, s₁⟩,
        .invoke ⟨.pushGlobal global globalType globalSize, s₂⟩, .invoke ⟨.addFromStack, s₃⟩]
      [.invoke ⟨.addGlobalAndConstant global globalType globalSize value constantType constantSize,
        s₁ ++ s₂ ++ s₃⟩]
  | addGlobalAndConstantToGlobal (global globalType globalSize : Label) (value : Constant)
      (constantType constantSize target targetType targetSize : Label)
      (s₁ s₂ : List Instruction) :
    Replaces u .addGlobalAndConstantToGlobal
      [.invoke ⟨.addGlobalAndConstant global globalType globalSize value constantType constantSize,
        s₁⟩, .invoke ⟨.popToGlobal target targetType targetSize, s₂⟩]
      [.invoke ⟨.addGlobalAndConstantToGlobal global globalType globalSize value constantType
        constantSize target targetType targetSize, s₁ ++ s₂⟩]
  | incrementGlobal (global type globalSize : Label) (value : Constant)
      (constantType constantSize targetSize : Label) (s : List Instruction)
      (hv : value.isOne = true) :
    Replaces u .incrementGlobal
      [.invoke ⟨.addGlobalAndConstantToGlobal global type globalSize value constantType
        constantSize global type targetSize, s⟩]
      [.invoke ⟨.incrementGlobal global type globalSize, s⟩]
  | removeBranchToNext (l : Label) (s : List Instruction) :
    Replaces u .removeBranchToNext [.invoke ⟨.branch l, s⟩, .label l] [.label l]

theorem romField?_eq_some {e : Entry} {field : Member} (h : romField? e = some field) :
    ∃ type size s, e = .invoke ⟨.pushAddressOfGlobal (.romData field) type size, s⟩ := by
  unfold romField? at h
  split at h
  · cases h
    exact ⟨_, _, _, rfl⟩
  · cases h

theorem replaces_of_romDataLength? {w r : List Entry} (h : romDataLength? u w = .ok (some r)) :
    Replaces u .romDataLength w r := by
  unfold romDataLength? at h
  split at h
  · rename_i address i
    split at h
    · cases h
    · rename_i field hf
      obtain ⟨type, size, s, rfl⟩ := romField?_eq_some hf
      obtain ⟨shape, hs, h⟩ := bind_eq_ok.1 h
      obtain ⟨length, hl, h⟩ := bind_eq_ok.1 h
      cases pure_eq_ok.1 h
      exact .romDataLength field type size s i shape length hs hl
  · cases h

theorem replaces_of_romDataStride? {w r : List Entry} (h : romDataStride? u w = .ok (some r)) :
    Replaces u .romDataStride w r := by
  unfold romDataStride? at h
  split at h
  · rename_i address i
    split at h
    · cases h
    · rename_i field hf
      obtain ⟨type, size, s, rfl⟩ := romField?_eq_some hf
      obtain ⟨shape, hs, h⟩ := bind_eq_ok.1 h
      obtain ⟨stride, hl, h⟩ := bind_eq_ok.1 h
      cases pure_eq_ok.1 h
      exact .romDataStride field type size s i shape stride hs hl
  · cases h

/-- **Every replacement is one of the listed ones.** -/
theorem replaces_of_replacement? {rule : Rule} {w r : List Entry}
    (h : rule.replacement? u w = .ok (some r)) : Replaces u rule w r := by
  cases rule
  case romDataLength => exact replaces_of_romDataLength? h
  case romDataStride => exact replaces_of_romDataStride? h
  all_goals simp only [replacement?, pure, Except.pure, Except.ok.injEq] at h
  case inlineAssembly =>
    unfold inlineAssembly? at h
    split at h <;> cases h
    exact .inlineAssembly _ _ _
  case romElementAtConstant =>
    unfold romElementAtConstant? at h
    split at h <;> cases h
    exact .romElementAtConstant _ _ _ _ _ _ _ _ _
  case romElementFromStack =>
    unfold romElementFromStack? at h
    split at h <;> cases h
    exact .romElementFromStack _ _ _ _ _ _ _ _ _
  case assignConstantToGlobal =>
    unfold assignConstantToGlobal? at h
    split at h <;> cases h
    exact .assignConstantToGlobal _ _ _ _ _ _ _ _
  case copyGlobalToGlobal =>
    unfold copyGlobalToGlobal? at h
    split at h <;> cases h
    exact .copyGlobalToGlobal _ _ _ _ _ _ _ _
  case addGlobalAndConstant =>
    unfold addGlobalAndConstant? at h
    split at h <;> cases h
    · exact .addGlobalFirst _ _ _ _ _ _ _ _ _
    · exact .addConstantFirst _ _ _ _ _ _ _ _ _
  case addGlobalAndConstantToGlobal =>
    unfold addGlobalAndConstantToGlobal? at h
    split at h <;> cases h
    exact .addGlobalAndConstantToGlobal _ _ _ _ _ _ _ _ _ _ _
  case incrementGlobal =>
    unfold incrementGlobal? at h
    split at h
    · split at h
      · rename_i hc
        simp only [Bool.and_eq_true, beq_iff_eq] at hc
        obtain ⟨⟨hv, rfl⟩, rfl⟩ := hc
        cases h
        exact .incrementGlobal _ _ _ _ _ _ _ _ hv
      · cases h
    · cases h
  case removeBranchToNext =>
    unfold removeBranchToNext? at h
    split at h
    · split at h
      · rename_i heq
        subst heq
        cases h
        exact .removeBranchToNext _ _
      · cases h
    · cases h

end Rule

namespace Peephole

variable {u : Universe} {rules : List Rule}

/-- One replacement of a window by one of the rules, anywhere in a stream. -/
inductive Rewrites (u : Universe) (rules : List Rule) : List Entry → List Entry → Prop where
  | intro (before after : List Entry) {rule : Rule} {w r : List Entry} (hr : rule ∈ rules)
      (h : rule.Replaces u w r) : Rewrites u rules (before ++ w ++ after) (before ++ r ++ after)

/-- A replacement stays one with more entries in front. -/
theorem Rewrites.cons {es es' : List Entry} (h : Rewrites u rules es es') (e : Entry) :
    Rewrites u rules (e :: es) (e :: es') := by
  obtain ⟨before, after, hr, hw⟩ := h
  exact .intro (e :: before) after hr hw

/-- What a sweep returns comes from its input by replacements. -/
theorem reflTransGen_of_sweep {rule : Rule} (hr : rule ∈ rules) {es out : List Entry}
    (h : sweep u rule es = .ok out) : Relation.ReflTransGen (Rewrites u rules) es out := by
  fun_induction sweep u rule es generalizing out with
  | case1 =>
    cases h
    exact .refl
  | case2 => cases h
  | case3 e es r hw ih =>
    have hstep := Rewrites.intro [] ((e :: es).drop rule.window) hr
      (Rule.replaces_of_replacement? hw)
    simp only [List.nil_append, List.take_append_drop] at hstep
    exact .head hstep (ih h)
  | case4 e es _ ih =>
    obtain ⟨rest, hrest, rfl⟩ := map_eq_ok.1 h
    exact Relation.ReflTransGen.lift (e :: ·) (fun _ _ hs => Rewrites.cons hs e) _ _ (ih hrest)

theorem sweep_of_cursor {rule : Rule} {es out : List Entry}
    (h : Cursor.sweep u rule ⟨[], es⟩ = .ok out) : sweep u rule es = .ok out := by
  rw [Cursor.sweep_eq] at h
  obtain ⟨out', hout, rfl⟩ := map_eq_ok.1 h
  exact hout

theorem reflTransGen_of_pass {active : List Rule} (hr : active ⊆ rules) {es out : List Entry}
    (h : pass u active es = .ok out) : Relation.ReflTransGen (Rewrites u rules) es out := by
  induction active generalizing es with
  | nil =>
    cases h
    exact .refl
  | cons rule active ih =>
    rw [List.cons_subset] at hr
    rw [pass] at h
    split at h
    · cases h
    · rename_i mid hmid
      exact (reflTransGen_of_sweep hr.1 (sweep_of_cursor hmid)).trans (ih hr.2 h)

theorem reflTransGen_of_normalize {es out : List Entry} (h : normalize u rules es = .ok out) :
    Relation.ReflTransGen (Rewrites u rules) es out := by
  fun_induction normalize u rules es with
  | case1 => cases h
  | case2 =>
    cases h
    exact .refl
  | case3 es mid hpass _ ih =>
    rw [EntryList.pass_eq] at hpass
    exact (reflTransGen_of_pass (List.Subset.refl _) hpass).trans (ih h)

theorem optimize_eq_ok {ctx : Context} {m : Member} {es out : List Entry} :
    optimize ctx m es = .ok out ↔
      normalize ctx.program (Peephole.rules ctx.options) es = .ok out ∧ leftovers out = [] := by
  unfold optimize
  rw [bind_eq_ok]
  constructor
  · rintro ⟨mid, hmid, h⟩
    split at h
    · cases pure_eq_ok.1 h
      exact ⟨hmid, ‹_›⟩
    · cases h
  · rintro ⟨hout, hl⟩
    exact ⟨out, hout, by rw [if_pos hl]; rfl⟩

/-- **What `optimize` returns comes from its input by replacements.** -/
theorem reflTransGen_of_optimize {ctx : Context} {m : Member} {es out : List Entry}
    (h : optimize ctx m es = .ok out) :
    Relation.ReflTransGen (Rewrites ctx.program (Peephole.rules ctx.options)) es out :=
  reflTransGen_of_normalize (optimize_eq_ok.1 h).1

/-! ### Labels and placeholders -/

/-- The labels that a stream defines, in order. -/
def definedLabels (es : List Entry) : List Label := es.filterMap (·.definedLabel?)

@[simp] theorem definedLabels_append (as bs : List Entry) :
    definedLabels (as ++ bs) = definedLabels as ++ definedLabels bs := List.filterMap_append

theorem definedLabels_of_replaces {rule : Rule} {w r : List Entry} (h : rule.Replaces u w r) :
    definedLabels r = definedLabels w := by
  cases h <;> rfl

/-- **A replacement neither adds, drops nor moves a label.** -/
theorem definedLabels_of_rewrites {es es' : List Entry} (h : Rewrites u rules es es') :
    definedLabels es' = definedLabels es := by
  obtain ⟨before, after, _, hw⟩ := h
  simp only [definedLabels_append, definedLabels_of_replaces hw]

@[simp] theorem leftovers_append (as bs : List Entry) :
    leftovers (as ++ bs) = leftovers as ++ leftovers bs := List.filterMap_append

theorem leftovers_eq_nil_iff {es : List Entry} :
    leftovers es = [] ↔ ∀ e ∈ es, e.pending? = none := List.filterMap_eq_nil_iff

theorem leftovers_of_replaces {rule : Rule} {w r : List Entry} (h : rule.Replaces u w r) :
    leftovers r = [] := by
  cases h <;> rfl

theorem leftovers_of_rewrites {es es' : List Entry} (h : Rewrites u rules es es')
    (hes : leftovers es = []) : leftovers es' = [] := by
  obtain ⟨before, after, _, hw⟩ := h
  simp only [leftovers_append, List.append_eq_nil_iff] at hes ⊢
  exact ⟨⟨hes.1.1, leftovers_of_replaces hw⟩, hes.2⟩

/-- A window without placeholders is never rejected. -/
theorem exists_replacement?_of_leftovers (rule : Rule) {w : List Entry} (h : leftovers w = []) :
    ∃ o, rule.replacement? u w = .ok o := by
  rw [leftovers_eq_nil_iff] at h
  cases rule
  case romDataLength =>
    simp only [Rule.replacement?, Rule.romDataLength?]
    split
    · exact absurd (h _ (List.mem_cons_of_mem _ (List.mem_singleton_self _)))
        (by simp [Entry.pending?])
    · exact ⟨_, rfl⟩
  case romDataStride =>
    simp only [Rule.replacement?, Rule.romDataStride?]
    split
    · exact absurd (h _ (List.mem_cons_of_mem _ (List.mem_singleton_self _)))
        (by simp [Entry.pending?])
    · exact ⟨_, rfl⟩
  all_goals exact ⟨_, rfl⟩

theorem exists_sweep_of_leftovers (rule : Rule) {es : List Entry} (h : leftovers es = []) :
    ∃ out, sweep u rule es = .ok out ∧ leftovers out = [] := by
  fun_induction sweep u rule es with
  | case1 => exact ⟨[], rfl, rfl⟩
  | case2 e es err herr =>
    rw [← List.take_append_drop rule.window (e :: es), leftovers_append,
      List.append_eq_nil_iff] at h
    obtain ⟨o, ho⟩ := exists_replacement?_of_leftovers (u := u) rule h.1
    rw [ho] at herr
    cases herr
  | case3 e es r hw ih =>
    rw [← List.take_append_drop rule.window (e :: es), leftovers_append,
      List.append_eq_nil_iff] at h
    apply ih
    rw [leftovers_append, leftovers_of_replaces (Rule.replaces_of_replacement? hw), h.2]
    rfl
  | case4 e es _ ih =>
    rw [← List.singleton_append, leftovers_append, List.append_eq_nil_iff] at h
    obtain ⟨out, hout, hl⟩ := ih h.2
    refine ⟨e :: out, map_eq_ok.2 ⟨out, hout, rfl⟩, ?_⟩
    rw [← List.singleton_append, leftovers_append, h.1, hl]
    rfl

theorem exists_pass_of_leftovers (active : List Rule) {es : List Entry} (h : leftovers es = []) :
    ∃ out, pass u active es = .ok out ∧ leftovers out = [] := by
  induction active generalizing es with
  | nil => exact ⟨es, rfl, h⟩
  | cons rule active ih =>
    obtain ⟨mid, hmid, hl⟩ := exists_sweep_of_leftovers (u := u) rule h
    have hc : Cursor.sweep u rule ⟨[], es⟩ = .ok mid := by
      rw [Cursor.sweep_eq]
      exact map_eq_ok.2 ⟨mid, hmid, rfl⟩
    rw [pass, hc]
    exact ih hl

theorem exists_normalize_of_leftovers {es : List Entry} (h : leftovers es = []) :
    ∃ out, normalize u rules es = .ok out ∧ leftovers out = [] := by
  fun_induction normalize u rules es with
  | case1 es err herr =>
    obtain ⟨out, hout, -⟩ := exists_pass_of_leftovers (u := u) rules h
    rw [EntryList.pass_eq, hout] at herr
    cases herr
  | case2 es => exact ⟨es, rfl, h⟩
  | case3 es mid hmid _ ih =>
    obtain ⟨out, hout, hl⟩ := exists_pass_of_leftovers (u := u) rules h
    rw [EntryList.pass_eq, hout] at hmid
    cases hmid
    exact ih hl

/-- **A stream without placeholders is never rejected.** -/
theorem exists_optimize_of_leftovers (ctx : Context) (m : Member) {es : List Entry}
    (h : leftovers es = []) : ∃ out, optimize ctx m es = .ok out := by
  obtain ⟨out, hout, hl⟩ := exists_normalize_of_leftovers h
  exact ⟨out, optimize_eq_ok.2 ⟨hout, hl⟩⟩

end Peephole

end Cartridge
