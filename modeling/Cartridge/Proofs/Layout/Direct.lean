import Cartridge.Layout
import Cartridge.Proofs.Outcome
import Mathlib.Logic.Relation
import Mathlib.Order.Basic

/-!
# Layouts without a table

A value of a type holds the values of its instance fields, except those that are pointers
(`Universe.Contains`). Layouts follow this relation, and only this relation (`build_congr`).
`nested` is the layout of a type inside of others, the chain, when nothing is remembered. The chain
does not get longer than there are types (`cutOff_eq_direct`).

If there is a layout, then whatever is held on the way is neither on the chain nor held by itself
(`not_mem_of_nested`). For that reason the chain has no influence on the layout
(`nested_of_nested`), which is why layouts can be remembered at all.
-/

namespace Cartridge

namespace Universe

variable (u : Universe)

/-- A value of `s` holds one of `t`. -/
def Contains (s t : TypeName) : Prop :=
  ∃ d, u.findType s = .ok d ∧ d.primitiveSize = none ∧ t.isPointer = false ∧
    ∃ f ∈ d.instanceFields, f.type = t

variable {u}

theorem findType_of_not_mem {t : TypeName} (hp : t.isPointer = false)
    (h : t ∉ u.types.map (·.name)) : u.findType t = .error (.missingType t.text) := by
  have hfind : (u.types.find? fun d => d.name == t) = none := by
    rw [List.find?_eq_none]
    intro d hd heq
    exact h (List.mem_map.2 ⟨d, hd, by simpa using heq⟩)
  simp only [findType, TypeName.elementType_of_not_isPointer hp, hfind]

theorem eq_of_findType_error {t : TypeName} {e : Error} (hp : t.isPointer = false)
    (h : u.findType t = .error e) : e = .missingType t.text := by
  simp only [findType, TypeName.elementType_of_not_isPointer hp] at h
  split at h
  · cases h
  · cases h
    rfl

/-- Induction along what values hold, each time with what is around it. -/
theorem containment_induction (u : Universe) {motive : List TypeName → TypeName → Prop}
    (h : ∀ chain t, (∀ b, u.Contains t b → b ∉ chain ++ [t] → motive (chain ++ [t]) b) →
      motive chain t) (chain : List TypeName) (t : TypeName) : motive chain t := by
  induction hn : unvisited (u.types.map (·.name)) (chain ++ [t])
    using Nat.strongRecOn generalizing chain t with
  | ind n ih =>
    refine h chain t fun b hb hc => ?_
    by_cases hk : b ∈ u.types.map (·.name)
    · exact ih _ (hn ▸ unvisited_append_lt hk hc) _ _ rfl
    · -- What is not declared holds nothing.
      obtain ⟨-, -, -, hp, -⟩ := hb
      refine h _ _ fun c ⟨d, hd, _⟩ => ?_
      rw [findType_of_not_mem hp hk] at hd
      cases hd

/-- What holds a type holds what that type holds. -/
theorem transGen_of_chain {chain : List TypeName} {b t : TypeName}
    (hchain : ∀ s ∈ chain, Relation.TransGen u.Contains s t) (hb : u.Contains t b) :
    ∀ s ∈ chain ++ [t], Relation.TransGen u.Contains s b := by
  intro s hs
  rcases List.mem_append.1 hs with hs | hs
  · exact (hchain s hs).tail hb
  · exact List.mem_singleton.1 hs ▸ .single hb

end Universe

namespace Layout

/-! ### What a layout depends on -/

section Monadic

variable {m : Type → Type} [Monad m] [MonadExceptOf Error m] {u : Universe}

theorem placeFields_congr {sizeOf sizeOf' : TypeName → m Nat} (owner : TypeName)
    {fields : List FieldDecl} (h : ∀ f ∈ fields, sizeOf f.type = sizeOf' f.type) (offset : Nat) :
    placeFields owner sizeOf offset fields = placeFields owner sizeOf' offset fields := by
  induction fields generalizing offset with
  | nil => rfl
  | cons f fields ih =>
    rw [List.forall_mem_cons] at h
    simp only [placeFields, h.1, ih h.2]

/-- **A layout depends only on those of the types that it contains.** -/
theorem build_congr {layoutOf layoutOf' : TypeName → m TypeLayout} {t : TypeName}
    (h : ∀ b, u.Contains t b → layoutOf b = layoutOf' b) :
    build u layoutOf t = build u layoutOf' t := by
  unfold build
  split
  · rfl
  · rename_i d hd
    split
    · rfl
    · rename_i hsize
      rw [placeFields_congr t]
      intro f hf
      unfold fieldSize
      split
      · rfl
      · rename_i hp
        rw [h f.type ⟨d, hd, hsize, by simpa using hp, f, hf, rfl⟩]

theorem descent_eq (u : Universe) (remember : TypeName → m TypeLayout → m TypeLayout)
    (chain : List TypeName) (t : TypeName) :
    descent u remember chain t = build u (fun b => remember b (
      if b ∈ chain ++ [t] then throw (.recursiveLayout b.text)
      else if b ∈ u.types.map (·.name) then descent u remember (chain ++ [t]) b
      else throw (.missingType b.text))) t := by
  unfold descent
  rw [descend]
  rfl

end Monadic

/-! ### Without a table -/

variable {u : Universe} {chain chain' : List TypeName} {s t : TypeName} {l : TypeLayout}

/-- The layout of a type inside of those on the chain, computed without remembering any other. -/
def nested (u : Universe) (chain : List TypeName) (t : TypeName) : Except Error TypeLayout :=
  descent u (fun _ l => l) chain t

theorem nested_of_findType {e : Error} (h : u.findType t = .error e) (chain : List TypeName) :
    nested u chain t = .error e := by
  rw [nested, descent_eq, build, h]
  rfl

/-- Whether a type is declared need not be asked in advance. -/
theorem nested_eq (u : Universe) (chain : List TypeName) (t : TypeName) :
    nested u chain t = build u (fun b =>
      if b ∈ chain ++ [t] then .error (.recursiveLayout b.text)
      else nested u (chain ++ [t]) b) t := by
  rw [nested, descent_eq]
  refine build_congr fun b ⟨_, _, _, hp, _⟩ => ?_
  by_cases hc : b ∈ chain ++ [t]
  · rw [if_pos hc, if_pos hc]
    rfl
  · rw [if_neg hc, if_neg hc]
    by_cases hk : b ∈ u.types.map (·.name)
    · rw [if_pos hk]
      rfl
    · rw [if_neg hk, nested_of_findType (Universe.findType_of_not_mem hp hk)]
      rfl

/-! ### Depth -/

/-- The layout of a type where types inside of too many others get the layout `out`. -/
def cutOff (u : Universe) (out : Except Error TypeLayout) :
    Nat → List TypeName → TypeName → Except Error TypeLayout
  | 0, _, _ => out
  | depth + 1, chain, t => build u (fun b =>
      if b ∈ chain ++ [t] then .error (.recursiveLayout b.text)
      else cutOff u out depth (chain ++ [t]) b) t

theorem cutOff_eq (out : Except Error TypeLayout) {depth : Nat}
    (h : unvisited (u.types.map (·.name)) (chain ++ [t]) + 1 < depth) :
    cutOff u out depth chain t = nested u chain t := by
  induction depth generalizing chain t with
  | zero => omega
  | succ depth ih =>
    rw [cutOff, nested_eq]
    refine build_congr fun b ⟨_, _, _, hp, _⟩ => ?_
    by_cases hc : b ∈ chain ++ [t]
    · rw [if_pos hc, if_pos hc]
    rw [if_neg hc, if_neg hc]
    by_cases hk : b ∈ u.types.map (·.name)
    · have hlt := unvisited_append_lt hk hc
      exact ih (by omega)
    · -- A type that is not declared is the last one.
      obtain ⟨depth, rfl⟩ : ∃ k, depth = k + 1 := ⟨depth - 1, by omega⟩
      have hmissing := Universe.findType_of_not_mem hp hk
      rw [nested_of_findType hmissing, cutOff, build, hmissing]
      rfl

/-- **No layout is computed inside of more others than there are types.** -/
theorem cutOff_eq_direct (u : Universe) (out : Except Error TypeLayout) (t : TypeName) :
    cutOff u out (u.types.length + 2) [] t = direct u t := by
  refine cutOff_eq out ?_
  have hle : unvisited (u.types.map (·.name)) ([] ++ [t]) ≤ u.types.length :=
    List.countP_le_length.trans_eq (List.length_map _)
  omega

/-! ### Chains -/

theorem exists_of_placeFields {owner : TypeName} {sizeOf : TypeName → Except Error Nat}
    {offset : Nat} {fields : List FieldDecl} {placed : List FieldLayout × Nat}
    (h : placeFields owner sizeOf offset fields = .ok placed) :
    ∀ f ∈ fields, ∃ n, sizeOf f.type = .ok n := by
  induction fields generalizing offset placed with
  | nil => exact List.forall_mem_nil _
  | cons f fields ih =>
    obtain ⟨n, hn, h⟩ := bind_eq_ok.1 h
    split at h
    · obtain ⟨rest, hrest, -⟩ := bind_eq_ok.1 h
      exact List.forall_mem_cons.2 ⟨⟨n, hn⟩, ih hrest⟩
    · cases h

/-- The layouts of all contained types are needed. -/
theorem exists_of_build {layoutOf : TypeName → Except Error TypeLayout}
    (h : build u layoutOf t = .ok l) (hs : u.Contains t s) : ∃ l', layoutOf s = .ok l' := by
  obtain ⟨d, hd, hsize, hp, f, hf, rfl⟩ := hs
  simp only [build, hd, hsize] at h
  obtain ⟨placed, hplaced, -⟩ := bind_eq_ok.1 h
  obtain ⟨n, hn⟩ := exists_of_placeFields hplaced f hf
  rw [fieldSize, hp] at hn
  obtain ⟨l', hl', -⟩ := bind_eq_ok.1 hn
  exact ⟨l', hl'⟩

theorem exists_of_nested (h : nested u chain t = .ok l) (hs : u.Contains t s) :
    s ∉ chain ++ [t] ∧ ∃ l', nested u (chain ++ [t]) s = .ok l' := by
  rw [nested_eq] at h
  obtain ⟨l', hl'⟩ := exists_of_build h hs
  split at hl'
  · cases hl'
  · exact ⟨‹_›, l', hl'⟩

/-- **What has a layout holds nothing that is around it, and no type by way of itself.** -/
theorem not_mem_of_nested (h : nested u chain t = .ok l) (hs : Relation.TransGen u.Contains t s) :
    s ∉ chain ++ [t] := by
  induction chain, t using Universe.containment_induction u generalizing l with
  | h chain t ih =>
    obtain ⟨b, htb, hbs⟩ := Relation.TransGen.head'_iff.1 hs
    obtain ⟨hb, l', hl'⟩ := exists_of_nested h htb
    rcases Relation.reflTransGen_iff_eq_or_transGen.1 hbs with rfl | hbs
    · exact hb
    · exact fun hmem => ih b htb hb hl' hbs (List.mem_append_left _ hmem)

/-- **A layout does not depend on what is around the type**, unless the type holds it. -/
theorem nested_of_nested (h : nested u chain t = .ok l)
    (havoid : ∀ s, Relation.TransGen u.Contains t s → s ∉ chain') : nested u chain' t = .ok l := by
  induction chain, t using Universe.containment_induction u generalizing l chain' with
  | h chain t ih =>
    have hcyclic := fun s => not_mem_of_nested (s := s) h
    -- Both layouts are built from those of the contained types, which are the same by induction.
    rw [← h, nested_eq, nested_eq u chain]
    refine build_congr fun b hb => ?_
    obtain ⟨hbchain, l', hl'⟩ := exists_of_nested h hb
    have hbt : b ≠ t := by
      rintro rfl
      exact hbchain (List.mem_append_right _ (List.mem_singleton_self b))
    have hbchain' : b ∉ chain' ++ [t] := by
      simpa [hbt] using havoid b (.single hb)
    rw [if_neg hbchain, if_neg hbchain', hl']
    refine ih b hb hbchain hl' fun s hs => ?_
    have hst : s ≠ t := by
      rintro rfl
      exact hcyclic s (.head hb hs) (List.mem_append_right _ (List.mem_singleton_self s))
    simpa [hst] using havoid s (.head hb hs)

end Layout

end Cartridge
