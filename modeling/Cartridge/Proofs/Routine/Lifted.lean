import Cartridge.Proofs.Routine.Views

/-!
# Lifted locals

A local whose address is taken needs memory of its own. Selection notes such locals beside the
entries, and for an inlined call those of the body (`Selection.Exact`). Wrapping, rewriting and
tracking change the entries afterwards, but not the addresses that they take (`addressesTaken`), so
that both still agree at the end: **`Routine.lifted_iff_addressTaken`**.
-/

namespace Cartridge

/-- The local whose address an entry takes. -/
def Entry.addressTaken? : Entry → Option Label
  | .invoke ⟨.pushAddressOfLocal slot _ _, _⟩ => some slot
  | _ => none

/-- The locals whose addresses a stream takes, in order. -/
def addressesTaken (es : List Entry) : List Label := es.filterMap (·.addressTaken?)

theorem addressTaken?_eq_some {e : Entry} {l : Label} :
    e.addressTaken? = some l ↔
      ∃ type size sources, e = .invoke ⟨.pushAddressOfLocal l type size, sources⟩ := by
  constructor
  · intro h
    unfold Entry.addressTaken? at h
    split at h
    · cases h
      exact ⟨_, _, _, rfl⟩
    · cases h
  · rintro ⟨type, size, sources, rfl⟩
    rfl

theorem mem_addressesTaken {es : List Entry} {l : Label} :
    l ∈ addressesTaken es ↔
      ∃ type size sources, .invoke ⟨.pushAddressOfLocal l type size, sources⟩ ∈ es := by
  simp only [addressesTaken, List.mem_filterMap, addressTaken?_eq_some]
  constructor
  · rintro ⟨_, he, type, size, sources, rfl⟩
    exact ⟨type, size, sources, he⟩
  · rintro ⟨type, size, sources, he⟩
    exact ⟨_, he, type, size, sources, rfl⟩

theorem addressesTaken_append (es es' : List Entry) :
    addressesTaken (es ++ es') = addressesTaken es ++ addressesTaken es' := List.filterMap_append

/-- An entry that takes no address can be left out. -/
theorem addressesTaken_cons {e : Entry} (h : e.addressTaken? = none) (es : List Entry) :
    addressesTaken (e :: es) = addressesTaken es := List.filterMap_cons_none h

theorem addressesTaken_flatMap {α : Type} (f : α → List Entry) (as : List α) :
    addressesTaken (as.flatMap f) = as.flatMap fun a => addressesTaken (f a) :=
  List.filterMap_flatMap ..

/-! ### Passes over a stream -/

/-- **No pass changes the addresses that a stream takes.** -/
theorem stable_addressTaken? : Stable Entry.addressTaken? where
  replace h := by cases h <;> rfl
  arrayLet e h := by
    cases e with
    | invoke call => cases h
    | _ => rfl
  jump stop e := by
    unfold Routine.jumpInstead
    split <;> rfl

namespace Routine

theorem addressesTaken_wrapInline (m : Member) (es : List Entry) :
    addressesTaken (wrapInline m es) = addressesTaken es := by
  have hend : addressesTaken [.label (inlineEnd m), .directive .endBlock] = [] := rfl
  rw [wrapInline, List.cons_append, addressesTaken_cons rfl, addressesTaken_append, hend,
    List.append_nil]
  exact stable_addressTaken?.of_jumps _ es

theorem addressesTaken_frame (what : String) (es : List Entry) :
    addressesTaken (frame what es) = addressesTaken es := by
  have hend : addressesTaken [.comment ("End " ++ what), .endFunction] = [] := rfl
  rw [frame, List.cons_append, addressesTaken_cons rfl, addressesTaken_append, hend,
    List.append_nil]

end Routine

/-! ### Sets of labels -/

namespace Label

theorem mem_insert {l k : Label} {ls : List Label} : k ∈ insert l ls ↔ k = l ∨ k ∈ ls := by
  induction ls with
  | nil => simp [insert]
  | cons l' ls ih =>
    unfold insert
    split
    · next heq => simp [heq]
    · split
      · rw [List.mem_cons]
      · rw [List.mem_cons, ih, List.mem_cons]
        exact or_left_comm

theorem mem_insertAll {k : Label} {ls into : List Label} :
    k ∈ insertAll ls into ↔ k ∈ ls ∨ k ∈ into := by
  induction ls generalizing into with
  | nil => simp [insertAll]
  | cons l ls ih =>
    change k ∈ insertAll ls (insert l into) ↔ _
    rw [ih, mem_insert, List.mem_cons]
    tauto

end Label

/-! ### Selection -/

/-- The noted locals are those whose addresses the entries take. -/
def Selection.Exact (s : Selection) : Prop := ∀ l, l ∈ s.lifted ↔ l ∈ addressesTaken s.entries

/-- The lifted locals are those whose addresses the body takes. -/
def Routine.Exact (r : Routine) : Prop := ∀ l, l ∈ r.lifted ↔ l ∈ addressesTaken r.body

namespace Site

variable {s : Site} {i : Instruction}

/-- If the computation returns a selection, then an exact one. -/
def Lifts (x : Except Error Selection) : Prop := ∀ sel, x = .ok sel → sel.Exact

theorem lifts_ok {sel : Selection} (h : sel.lifted = addressesTaken sel.entries) :
    Lifts (.ok sel) := by
  rintro _ ⟨⟩ l
  rw [h]

theorem lifts_error (e : Error) : Lifts (.error e) := nofun

theorem lifts_one {op : MacroOp} (h : (Entry.ofInstruction op i).addressTaken? = none) :
    Lifts (one i op) := lifts_ok (addressesTaken_cons h []).symm

theorem lifts_bind {α : Type} {x : Except Error α} {f : α → Except Error Selection}
    (h : ∀ a, Lifts (f a)) : Lifts (x >>= f) := by
  intro sel hsel
  obtain ⟨a, -, hsel⟩ := bind_eq_ok.1 hsel
  exact h a sel hsel

theorem lifts_fault (reason : String) : Lifts (s.fault i reason) := nofun

theorem lifts_inlineCall {callee : Member}
    (h : ∀ r, s.inline callee = .ok r → r.Exact) (d : MethodDecl) :
    Lifts (s.inlineCall i callee d) := by
  unfold inlineCall
  split
  · exact lifts_error _
  · intro sel hsel l
    obtain ⟨r, hr, hsel⟩ := bind_eq_ok.1 hsel
    cases pure_eq_ok.1 hsel
    rw [h r hr l, addressesTaken_cons rfl]

theorem lifts_plainCall (callee : Member) (d : MethodDecl) : Lifts (plainCall i callee d) := by
  unfold plainCall
  split
  · exact lifts_error _
  · split <;> exact lifts_one rfl

theorem lifts_call (h : ∀ callee r, s.inline callee = .ok r → r.Exact) : Lifts (s.call i) := by
  unfold call
  split
  · next callee _ =>
    refine lifts_bind fun d => ?_
    split
    · exact lifts_ok rfl
    · split
      · exact lifts_one rfl
      · exact lifts_one rfl
      · exact lifts_error _
    · split
      · exact lifts_error _
      · exact lifts_one rfl
    · split
      · exact lifts_error _
      · exact lifts_one rfl
    · exact lifts_ok rfl
    · exact lifts_inlineCall (h callee) d
    · split
      · exact lifts_inlineCall (h callee) d
      · exact lifts_plainCall callee d
  · exact lifts_fault _

/-- **Selection notes the locals whose addresses it takes**, if inlined bodies come with theirs. -/
theorem lifts_select (h : ∀ callee r, s.inline callee = .ok r → r.Exact) :
    Lifts (s.select i) := by
  unfold select
  cases hop : i.opcode
  case nop | convU1 | convU | convI => exact lifts_ok rfl
  case ldcM1 | ldc0 | ldc1 | ldc2 | ldc3 | ldc4 | ldc5 | ldc6 | ldc7 | ldc8 | ldcShort | ldc =>
    exact lifts_bind fun value => lifts_one rfl
  case ldstr =>
    dsimp only
    split
    · exact lifts_ok rfl
    · exact lifts_fault _
  case ldloc0 | ldloc1 | ldloc2 | ldloc3 | ldlocShort | ldloc | stloc0 | stloc1 | stloc2 | stloc3
      | stlocShort | stloc | ldarg0 | ldarg1 | ldarg2 | ldarg3 | ldargShort | ldarg =>
    exact lifts_bind fun slot => lifts_one rfl
  -- The only macro that takes the address of a local.
  case ldlocaShort | ldloca => exact lifts_bind fun slot => lifts_ok rfl
  case ldsfld | stsfld =>
    refine lifts_bind fun field => ?_
    dsimp only
    split
    · exact lifts_fault _
    · exact lifts_one rfl
  case ldsflda =>
    refine lifts_bind fun field => ?_
    dsimp only
    split <;> exact lifts_one rfl
  case ldfld | stfld | ldflda => exact lifts_bind fun field => lifts_one rfl
  case ldobj | initobj => exact lifts_bind fun type => lifts_one rfl
  case ldindU1 | stindI1 | add | sub | or | ceq | dup | pop => exact lifts_one rfl
  case br | brShort | brtrue | brtrueShort | brfalse | brfalseShort | blt | bltShort =>
    exact lifts_bind fun target => lifts_one rfl
  case call => exact lifts_call h
  case ret =>
    dsimp only
    split <;> exact lifts_one rfl
  all_goals exact lifts_error _

end Site

/-! ### Routines -/

namespace Routine

variable {ctx : Context} {m : Member} {r : Routine} {inline : Member → Except Error Routine}

theorem exact_selectBody {sel : Selection} (h : selectBody ctx inline m = .ok sel)
    (hinline : ∀ callee r, inline callee = .ok r → r.Exact) : sel.Exact := by
  obtain ⟨d, -, h⟩ := bind_eq_ok.1 h
  obtain ⟨parts, hparts, h⟩ := bind_eq_ok.1 h
  cases pure_eq_ok.1 h
  have hpart : ∀ part ∈ parts, part.Exact := by
    intro part hpart l
    obtain ⟨i, -, hi⟩ := exists_of_mem_mapM hparts hpart
    obtain ⟨selected, hselected, hi⟩ := bind_eq_ok.1 hi
    cases pure_eq_ok.1 hi
    have hlabel : addressesTaken (labelAt (targets d.body) i) = [] := by
      unfold labelAt
      split <;> rfl
    rw [Site.lifts_select hinline selected hselected l, addressesTaken_append, hlabel,
      List.nil_append]
  intro l
  rw [Label.mem_insertAll, addressesTaken_flatMap, List.mem_flatMap, List.mem_flatMap]
  simp only [List.not_mem_nil, or_false]
  exact exists_congr fun part => and_congr_right fun hmem => hpart part hmem l

/-- **Inlined bodies lift what they take the address of**, however deep they are put into one
another. -/
theorem exact_inlined (chain : List Member) (h : inlined ctx chain m = .ok r) : r.Exact := by
  let P (x : Except Error Routine) : Prop := ∀ r, x = .ok r → r.Exact
  have hall : P (inlined ctx chain m) := by
    refine descend_induction (P := P) ?_ ?_ ?_ chain m
    · exact fun chain m => nofun
    · exact fun m => nofun
    · intro chain inline m hinline r h l
      obtain ⟨sel, hsel, h⟩ := bind_eq_ok.1 h
      obtain ⟨body, hbody, h⟩ := bind_eq_ok.1 h
      cases pure_eq_ok.1 h
      rw [addressesTaken_frame, addressesTaken, stable_addressTaken?.of_optimize hbody,
        ← addressesTaken, addressesTaken_wrapInline]
      exact exact_selectBody hsel hinline l
  exact hall r h

theorem exact_inlineInto (chain : List Member) (h : inlineInto ctx chain m = .ok r) :
    r.Exact := by
  unfold inlineInto at h
  split at h
  · cases h
  · exact exact_inlined chain h

theorem exact_finish {body : List Entry} {lifted : List Label}
    (h : finish ctx m body lifted = .ok r) (hbody : ∀ l, l ∈ lifted ↔ l ∈ addressesTaken body) :
    r.Exact := by
  obtain ⟨optimized, hoptimized, h⟩ := bind_eq_ok.1 h
  obtain ⟨tracked, htracked, h⟩ := bind_eq_ok.1 h
  cases pure_eq_ok.1 h
  intro l
  rw [addressesTaken_frame, addressesTaken_cons rfl, addressesTaken,
    stable_addressTaken?.of_track htracked, stable_addressTaken?.of_optimize hoptimized]
  exact hbody l

theorem exact_compile (h : compile ctx m = .ok r) : r.Exact := by
  obtain ⟨sel, hsel, h⟩ := bind_eq_ok.1 h
  exact exact_finish h (exact_selectBody hsel fun _ _ => exact_inlineInto [m])

theorem mem_addressesTaken_prologue {inits : List Routine} (h : ∀ r ∈ inits, r.Exact)
    {l : Label} : l ∈ addressesTaken (prologue inits) ↔ l ∈ inits.flatMap (·.lifted) := by
  rw [prologue, addressesTaken_cons rfl, addressesTaken_flatMap, List.mem_flatMap,
    List.mem_flatMap]
  refine exists_congr fun r => and_congr_right fun hr => ?_
  rw [addressesTaken_cons rfl, h r hr l]

theorem exact_compileEntryPoint (h : compileEntryPoint ctx m = .ok r) : r.Exact := by
  obtain ⟨sel, hsel, h⟩ := bind_eq_ok.1 h
  obtain ⟨inits, hinits, h⟩ := bind_eq_ok.1 h
  have hinit : ∀ r ∈ inits, r.Exact := by
    intro r hr
    obtain ⟨i, -, hi⟩ := exists_of_mem_mapM hinits hr
    exact exact_inlined [m] hi
  refine exact_finish h fun l => ?_
  rw [Label.mem_insertAll, addressesTaken_append, List.mem_append,
    mem_addressesTaken_prologue hinit, exact_selectBody hsel (fun _ _ => exact_inlineInto [m]) l]

/-- **Lifted locals are those whose addresses are taken.** However a method is compiled, as a
routine, as the entry point or into a caller, a local is lifted iff its address is taken somewhere
in the finished body, that is by the method itself, by a method inlined into it at any depth, or by
a static initializer. -/
theorem lifted_iff_addressTaken {ctx : Context} {m : Member} {r : Routine}
    (h : compile ctx m = .ok r ∨ compileEntryPoint ctx m = .ok r ∨
      ∃ chain, inlined ctx chain m = .ok r) (l : Label) :
    l ∈ r.lifted ↔ ∃ type size sources,
      .invoke ⟨.pushAddressOfLocal l type size, sources⟩ ∈ r.body := by
  have hexact : r.Exact := by
    obtain h | h | ⟨chain, h⟩ := h
    · exact exact_compile h
    · exact exact_compileEntryPoint h
    · exact exact_inlined chain h
  rw [hexact l, mem_addressesTaken]

/-- The entry point takes the address of one of its two locals. So does the static initializer, and
a method that is inlined into one that is inlined into the entry point. -/
theorem lifted_iff_addressTaken_nested :
    let member : String → Member := fun name => ⟨⟨"Game"⟩, name⟩
    let pointing : List Instruction :=
      [⟨0, .ldlocaShort, .localSlot 0⟩, ⟨1, .ldc5, .absent⟩, ⟨2, .stindI1, .absent⟩]
    let ctx : Context := ⟨⟨[{ name := "Game", types :=
      [{ name := ⟨"Game"⟩, methods :=
        [{ name := "Main", locals := [.byte, .byte], body := pointing ++
            [⟨3, .ldc1, .absent⟩, ⟨4, .stloc1, .absent⟩, ⟨5, .call, .method (member "Draw")⟩,
             ⟨6, .ret, .absent⟩] },
         { name := "Draw", marker := some .alwaysInline, body :=
            [⟨0, .call, .method (member "Blend")⟩, ⟨1, .ret, .absent⟩] },
         { name := "Blend", marker := some .alwaysInline, locals := [.byte], body :=
            pointing ++ [⟨3, .ret, .absent⟩] },
         { name := ".cctor", locals := [.byte], body := pointing ++ [⟨3, .ret, .absent⟩] }] }] }]⟩,
      {}⟩
    ∃ r, compileEntryPoint ctx (member "Main") = .ok r ∧
      r.lifted = [.localSlot (member ".cctor") 0, .localSlot (member "Blend") 0,
        .localSlot (member "Main") 0] ∧
      ∀ l, l ∈ r.lifted ↔ ∃ type size sources,
        .invoke ⟨.pushAddressOfLocal l type size, sources⟩ ∈ r.body := by
  intro member pointing ctx
  have hlifted : (compileEntryPoint ctx (member "Main")).map (·.lifted) =
      .ok [.localSlot (member ".cctor") 0, .localSlot (member "Blend") 0,
        .localSlot (member "Main") 0] := by
    decide +kernel
  obtain ⟨r, hr, hlocals⟩ := map_eq_ok.1 hlifted
  exact ⟨r, hr, hlocals, lifted_iff_addressTaken (.inr (.inl hr))⟩

end Routine

end Cartridge
