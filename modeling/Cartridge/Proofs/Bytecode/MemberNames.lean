import Cartridge.Proofs.Bytecode.RoundTrip

/-!
# Written forms of members

`Member.parse?` cuts a text at its first double colon (`FirstColons`), also where others follow or
overlap it: in `A:::B` the type is `A` and the member is `:B`. So a type name is read back only if no
double colon begins inside it, neither one that it holds nor one that its last character forms with
the separator (`firstColons_append_iff`).

**`Member.parse?_inverts_fullName`**: exactly the texts with something before and after their first
double colon are read, each as the member that is written so, and exactly the members with such a
type name and two parts that are not empty are read back from their written form.
-/

namespace Cartridge

/-- The first double colon of a text stands between `owner` and `name`. -/
structure FirstColons (text owner name : String) : Prop where
  eq_append : text = owner ++ "::" ++ name
  length_le (before after : String) : text = before ++ "::" ++ after →
    owner.length ≤ before.length

theorem toList_append_colons (before after : String) :
    (before ++ "::" ++ after).toList = before.toList ++ ':' :: ':' :: after.toList := by
  simp

namespace Member

/-! ### The cut -/

/-- The cut comes no later than any double colon. -/
theorem exists_splitColons? {cs before after : List Char}
    (h : cs = before ++ ':' :: ':' :: after) :
    ∃ owner name, splitColons? cs = some (owner, name) ∧ owner.length ≤ before.length := by
  fun_induction splitColons? cs generalizing before with
  | case1 cs => exact ⟨[], cs, rfl, Nat.zero_le _⟩
  | case2 c cs hcolons ih =>
    cases before with
    | nil =>
      obtain ⟨hc, hcs⟩ := List.cons.inj h
      exact (hcolons after hc hcs).elim
    | cons d before =>
      obtain ⟨owner, name, hsplit, hle⟩ := ih (List.cons.inj h).2
      rw [hsplit]
      exact ⟨c :: owner, name, rfl, Nat.succ_le_succ hle⟩
  | case3 => simp at h

theorem splitColons?_eq_some_iff {text owner name : String} :
    splitColons? text.toList = some (owner.toList, name.toList) ↔ FirstColons text owner name := by
  constructor
  · intro hsplit
    have happend := append_of_splitColons? hsplit
    refine ⟨String.toList_injective (by rw [happend, toList_append_colons]), ?_⟩
    rintro before after rfl
    obtain ⟨owner', name', hsplit', hle⟩ := exists_splitColons? (toList_append_colons before after)
    rw [hsplit'] at hsplit
    cases hsplit
    simpa only [String.length_toList] using hle
  · rintro ⟨rfl, hfirst⟩
    obtain ⟨owner', name', hsplit, hle⟩ := exists_splitColons? (toList_append_colons owner name)
    have happend := append_of_splitColons? hsplit
    have hge := hfirst (String.ofList owner') (String.ofList name')
      (String.toList_injective (by
        rw [happend, toList_append_colons, String.toList_ofList, String.toList_ofList]))
    rw [String.length_ofList] at hge
    rw [String.length_toList] at hle
    -- neither of the two cuts comes after the other
    have hlength : owner.toList.length = owner'.length := by
      rw [String.length_toList]
      exact le_antisymm hge hle
    rw [toList_append_colons] at happend
    obtain ⟨rfl, hname⟩ := List.append_inj happend hlength
    cases hname
    exact hsplit

theorem parse?_eq_some_iff {text : String} {m : Member} :
    parse? text = some m ↔
      FirstColons text m.declaringType.text m.name ∧ m.declaringType.text ≠ "" ∧ m.name ≠ "" := by
  obtain ⟨⟨owner⟩, name⟩ := m
  rw [← splitColons?_eq_some_iff, parse?]
  constructor
  · intro h
    split at h
    · next before after hsplit =>
      split at h
      · cases h
      · next hparts =>
        cases h
        simpa [hsplit] using hparts
    · cases h
  · rintro ⟨hsplit, howner, hname⟩
    rw [hsplit]
    simp [howner, hname]

end Member

/-! ### Type names that can be read back -/

/-- A double colon that begins inside `owner` ends there or with the first colon behind it. -/
theorem eq_append_of_length_lt {owner name before after : List Char}
    (h : owner ++ ':' :: ':' :: name = before ++ ':' :: ':' :: after)
    (hlt : before.length < owner.length) :
    (∃ rest, owner = before ++ ':' :: ':' :: rest) ∨ owner = before ++ [':'] := by
  obtain ⟨rest, rfl⟩ : before <+: owner :=
    List.prefix_of_prefix_length_le ⟨_, h.symm⟩ (List.prefix_append _ _) hlt.le
  rw [List.append_assoc] at h
  have hrest := List.append_cancel_left h
  -- what `owner` has behind `before` begins with the double colon, as far as it goes
  match rest with
  | [] => simp at hlt
  | [c] =>
    cases hrest
    exact .inr rfl
  | c :: d :: rest =>
    cases hrest
    exact .inl ⟨rest, rfl⟩

theorem firstColons_append_iff {owner name : String} :
    FirstColons (owner ++ "::" ++ name) owner name ↔
      (¬ ∃ before after, owner = before ++ "::" ++ after) ∧ ¬ ∃ before, owner = before ++ ":" := by
  constructor
  · intro h
    constructor
    · rintro ⟨before, after, rfl⟩
      have hle := h.length_le before (after ++ "::" ++ name) (by simp only [String.append_assoc])
      simp only [String.length_append, show "::".length = 2 from rfl] at hle
      omega
    · rintro ⟨before, rfl⟩
      have hle := h.length_le before (":" ++ name) (by
        simp only [String.append_assoc]
        rfl)
      simp only [String.length_append, show ":".length = 1 from rfl] at hle
      omega
  · rintro ⟨hinside, hend⟩
    refine ⟨rfl, fun before after h => Nat.le_of_not_lt fun hlt => ?_⟩
    have happend := congrArg String.toList h
    rw [toList_append_colons, toList_append_colons] at happend
    rcases eq_append_of_length_lt happend (by simpa only [String.length_toList] using hlt) with
      ⟨rest, howner⟩ | howner
    · exact hinside ⟨before, String.ofList rest, String.toList_injective (by
        rw [howner, toList_append_colons, String.toList_ofList])⟩
    · exact hend ⟨before, String.toList_injective (by simpa using howner)⟩

namespace Member

/-- **Reading and writing are inverse to each other.** A text is read iff it has something before
and after its first double colon, and the member is then written as that text. A member is read back
from its written form iff both parts are not empty and the type name neither holds a double colon
nor ends with a colon. -/
theorem parse?_inverts_fullName :
    (∀ text : String,
      ((parse? text).isSome ↔
        ∃ owner name, FirstColons text owner name ∧ owner ≠ "" ∧ name ≠ "") ∧
      ∀ m ∈ parse? text, m.fullName = text) ∧
    ∀ (t : TypeName) (name : String),
      parse? (fullName ⟨t, name⟩) = some ⟨t, name⟩ ↔
        t.text ≠ "" ∧ name ≠ "" ∧ (¬ ∃ before after, t.text = before ++ "::" ++ after) ∧
          ¬ ∃ before, t.text = before ++ ":" := by
  refine ⟨fun text => ⟨?_, fun m hm => fullName_of_parse? hm⟩, fun t name => ?_⟩
  · rw [Option.isSome_iff_exists]
    constructor
    · rintro ⟨m, hm⟩
      exact ⟨m.declaringType.text, m.name, parse?_eq_some_iff.1 hm⟩
    · rintro ⟨owner, name, h⟩
      exact ⟨⟨⟨owner⟩, name⟩, parse?_eq_some_iff.2 h⟩
  · rw [parse?_eq_some_iff, fullName, firstColons_append_iff]
    tauto

theorem parse?_inverts_fullName_colon :
    parse? "Game.Program:::Main" = some ⟨⟨"Game.Program"⟩, ":Main"⟩ ∧
      parse? (fullName ⟨⟨"Game.Program:"⟩, "Main"⟩) ≠ some ⟨⟨"Game.Program:"⟩, "Main"⟩ :=
  ⟨by decide, fun h => ((parse?_inverts_fullName.2 _ _).1 h).2.2.2 ⟨"Game.Program", rfl⟩⟩

end Member

end Cartridge
