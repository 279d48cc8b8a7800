import Cartridge.Routine.Compile
import Mathlib.Data.List.Infix
import Mathlib.Data.List.Nodup
import Mathlib.Tactic.Common

/-!
# When two labels have the same name

The name of a label begins with a word for its kind, and no such word begins another, so labels with
the same name are of the same kind or of two kinds that share the word. Numbers in names are written
without loss. Names of types and members are not: different ones may be the same symbol.

* `Text.hexUpper_injective`: hexadecimal numerals.
* `Label.stem_eq_of_text_eq`: labels with the same name share their first word.
* **`Label.text_eq_iff`**: labels have the same name iff they are `Alike`.
-/

namespace Cartridge

/-! ### Hexadecimal numerals -/

namespace Text

/-- The value of an upper-case hexadecimal digit. -/
def hexDigitValue (c : Char) : Nat := if c.isDigit then c.toNat - 48 else c.toNat - 55

/-- The value of an upper-case hexadecimal numeral. -/
def hexValue (cs : List Char) : Nat := cs.foldl (fun n c => 16 * n + hexDigitValue c) 0

theorem hexDigitValue_digitChar : ∀ d < 16, hexDigitValue d.digitChar.toUpper = d := by decide

theorem hexValue_append_singleton (cs : List Char) (c : Char) :
    hexValue (cs ++ [c]) = 16 * hexValue cs + hexDigitValue c := by
  rw [hexValue, List.foldl_append]
  rfl

theorem hexValue_toDigits (n : Nat) : hexValue ((Nat.toDigits 16 n).map Char.toUpper) = n := by
  induction n using Nat.strongRecOn with
  | ind n ih =>
    by_cases hn : n < 16
    · rw [Nat.toDigits_of_lt_base hn, List.map_singleton, ← List.nil_append [_],
        hexValue_append_singleton, hexDigitValue_digitChar n hn]
      exact Nat.zero_add n
    · rw [Nat.toDigits_of_base_le (by decide) (Nat.le_of_not_lt hn), List.map_append,
        List.map_singleton, hexValue_append_singleton, ih (n / 16) (by omega),
        hexDigitValue_digitChar _ (Nat.mod_lt n (by decide)), Nat.div_add_mod]

theorem hexValue_padZeros (width : Nat) (cs : List Char) :
    hexValue (padZeros width cs) = hexValue cs := by
  have hzeros : ∀ k, (List.replicate k '0').foldl (fun n c => 16 * n + hexDigitValue c) 0 = 0 := by
    intro k
    induction k with
    | zero => rfl
    | succ k ih => exact ih
  rw [padZeros, hexValue, List.foldl_append, hzeros]
  rfl

theorem hexUpper_injective (width : Nat) : Function.Injective (hexUpper width) := by
  intro m n h
  have hvalue := congrArg (fun s => hexValue s.toList) h
  simpa only [hexUpper, String.toList_ofList, hexValue_padZeros, hexValue_toDigits] using hvalue

end Text

theorem offsetText_injective : Function.Injective offsetText := by
  intro o o' h
  exact UInt32.toNat_inj.1 (Text.hexUpper_injective 4 (String.append_right_inj _ |>.1 h))

/-- The symbol for a width of pointers. -/
def PointerWidth.symbol : PointerWidth → String
  | .short => "SHORT_POINTER"
  | .long => "LONG_POINTER"

theorem PointerWidth.symbol_injective : Function.Injective PointerWidth.symbol := by
  intro w w' h
  cases w with
  | short =>
    cases w' with
    | short => rfl
    | long => exact absurd h (by decide)
  | long =>
    cases w' with
    | short => exact absurd h (by decide)
    | long => rfl

namespace Label

/-! ### First words -/

/-- The word at the start of the name of a label, by its kind. -/
def stem : Label → String
  | .branchTarget _ => "INLINE_RET_"
  | .instruction _ => "IL_"
  | .function _ => "FUNCTION_"
  | .argument .. => "ARG_"
  | .localSlot .. => "LOCAL_"
  | .global _ => "GLOBAL_"
  | .predefined _ => "START"
  | .reserved _ => "INTERNAL_RESERVED_"
  | .returnValue _ => "RETVAL_"
  | .romData _ => "ROMDATA_"
  | .type _ | .pointerType _ => "TYPE_"
  | .size _ | .pointerSize _ => "SIZE_"

/-- The words at the start of names, that of aliases included. -/
def stems : List String :=
  ["INLINE_RET_", "IL_", "FUNCTION_", "ARG_", "LOCAL_", "GLOBAL_", "START", "INTERNAL_RESERVED_",
   "RETVAL_", "ROMDATA_", "TYPE_", "SIZE_", "ALIAS_"]

theorem stem_mem_stems (l : Label) : l.stem ∈ stems := by cases l <;> simp [stem, stems]

theorem nodup_take_stems : (stems.map (·.toList.take 3)).Nodup := by decide +kernel

theorem three_le_length_stems : ∀ a ∈ stems, 3 ≤ a.toList.length := by decide +kernel

/-- No word begins with another one: the first three letters tell them apart. -/
theorem eq_of_mem_stems {a b : String} (ha : a ∈ stems) (hb : b ∈ stems)
    (h : a.toList <+: b.toList) : a = b := by
  obtain ⟨rest, hrest⟩ := h
  refine List.inj_on_of_nodup_map nodup_take_stems ha hb ?_
  rw [← hrest, List.take_append_of_le_length (three_le_length_stems a ha)]

/-- A text begins with at most one of the words. -/
theorem stem_unique {a b : String} (ha : a ∈ stems) (hb : b ∈ stems) {text : String}
    (hat : a.toList <+: text.toList) (hbt : b.toList <+: text.toList) : a = b := by
  rcases List.prefix_or_prefix_of_prefix hat hbt with h | h
  · exact eq_of_mem_stems ha hb h
  · exact (eq_of_mem_stems hb ha h).symm

/-- Whether a label has a name of its kind: made-up positions are the ends of inlined bodies, and no
symbol of the hardware but the start of the program is defined. -/
def Named : Label → Prop
  | .branchTarget name => ∃ m, .branchTarget name = Routine.inlineEnd m
  | .predefined symbol => symbol = "START"
  | _ => True

theorem stem_isPrefix {l : Label} (hl : l.Named) : l.stem.toList <+: l.text.toList := by
  have hfirst : ∀ a b : String, a.toList <+: (a ++ b).toList := fun a b =>
    ⟨b.toList, String.toList_append.symm⟩
  have hmiddle : ∀ a b c d : String, a.toList <+: (a ++ b ++ c ++ d).toList := fun a b c d =>
    ((hfirst a b).trans (hfirst _ c)).trans (hfirst _ d)
  cases l with
  | branchTarget name =>
    obtain ⟨m, hm⟩ := hl
    rw [hm]
    exact hfirst _ _
  | predefined symbol =>
    cases hl
    exact List.prefix_rfl
  | argument m k => exact hmiddle ..
  | localSlot m k => exact hmiddle ..
  | pointerType t => exact (hfirst _ _).trans (hfirst _ _)
  | pointerSize w => cases w <;> decide
  | _ => exact hfirst _ _

theorem stem_eq_of_text_eq {l l' : Label} (hl : l.Named) (hl' : l'.Named)
    (h : l.text = l'.text) : l.stem = l'.stem :=
  stem_unique l.stem_mem_stems l'.stem_mem_stems (stem_isPrefix hl) (h ▸ stem_isPrefix hl')

/-! ### Names -/

/-- Labels of one kind with the same number and the same symbols for types and members. A type may
also be like a pointer type or the width of a pointer. -/
def Alike : Label → Label → Prop
  | .branchTarget name, .branchTarget name' => name = name'
  | .instruction o, .instruction o' => o = o'
  | .argument m k, .argument m' k' | .localSlot m k, .localSlot m' k' =>
    m.symbol = m'.symbol ∧ k = k'
  | .function m, .function m' | .global m, .global m' | .returnValue m, .returnValue m'
  | .romData m, .romData m' => m.symbol = m'.symbol
  | .predefined s, .predefined s' => s = s'
  | .reserved k, .reserved k' => k = k'
  | .type t, .type t' | .pointerType t, .pointerType t' | .size t, .size t' =>
    t.symbol = t'.symbol
  | .type t, .pointerType t' | .pointerType t', .type t => t.symbol = t'.symbol ++ "_PTR"
  | .size t, .pointerSize w | .pointerSize w, .size t => t.symbol = w.symbol
  | .pointerSize w, .pointerSize w' => w = w'
  | _, _ => False

theorem toString_inj {k k' : Nat} : toString k = toString k' ↔ k = k' := by
  refine ⟨fun h => ?_, congrArg _⟩
  rw [Nat.toString_eq_ofList_toDigits, Nat.toString_eq_ofList_toDigits] at h
  have hvalue := congrArg (fun ds => Nat.ofDigitChars 10 ds 0) (String.ofList_injective h)
  simpa only [Nat.ofDigitChars_ten_toDigits] using hvalue

/-- A list is cut at the last place of an element in one way only. -/
theorem cut_at_last {α : Type} {x : α} {as bs cs ds : List α} (hb : x ∉ bs) (hd : x ∉ ds)
    (h : as ++ x :: bs = cs ++ x :: ds) : as = cs ∧ bs = ds := by
  rcases List.append_eq_append_iff.1 h with ⟨es, rfl, hes⟩ | ⟨es, rfl, hes⟩
  · cases es with
    | nil => exact ⟨(List.append_nil as).symm, (List.cons.inj hes).2⟩
    | cons e es =>
      obtain ⟨-, rfl⟩ := List.cons.inj hes
      exact absurd (List.mem_append_right es (List.mem_cons_self ..)) hb
  · cases es with
    | nil => exact ⟨List.append_nil cs, (List.cons.inj hes).2.symm⟩
    | cons e es =>
      obtain ⟨-, rfl⟩ := List.cons.inj hes
      exact absurd (List.mem_append_right es (List.mem_cons_self ..)) hd

/-- A name with a number at its end can be taken apart, as no digit is an underscore. -/
theorem numbered_inj {s s' : String} {k k' : Nat} :
    s ++ "_" ++ toString k = s' ++ "_" ++ toString k' ↔ s = s' ∧ k = k' := by
  refine ⟨fun h => ?_, fun ⟨hs, hk⟩ => by rw [hs, hk]⟩
  -- The symbol itself may have underscores, but the last one is that before the number.
  have hlists : s.toList ++ '_' :: Nat.toDigits 10 k = s'.toList ++ '_' :: Nat.toDigits 10 k' := by
    simpa [String.toList_append, ← String.toList_inj] using h
  obtain ⟨hs, hdigits⟩ :=
    cut_at_last Nat.underscore_not_in_toDigits Nat.underscore_not_in_toDigits hlists
  exact ⟨String.toList_inj.1 hs, toString_inj.1 (congrArg String.ofList hdigits)⟩

theorem slot_inj {stem s s' : String} {k k' : UInt16} :
    stem ++ s ++ "_" ++ toString k.toNat = stem ++ s' ++ "_" ++ toString k'.toNat ↔
      s = s' ∧ k = k' := by
  rw [numbered_inj, String.append_right_inj, UInt16.toNat_inj]

theorem text_pointerSize (w : PointerWidth) : (pointerSize w).text = "SIZE_" ++ w.symbol := by
  cases w <;> decide

/-- **Labels have the same name iff they are alike.** -/
theorem text_eq_iff {l l' : Label} (hl : l.Named) (hl' : l'.Named) :
    l.text = l'.text ↔ l.Alike l' := by
  have hne : l.stem ≠ l'.stem → l.text ≠ l'.text := fun hstem h =>
    hstem (stem_eq_of_text_eq hl hl' h)
  cases l with
  | branchTarget name =>
    cases l' with
    | branchTarget name' => exact Iff.rfl
    | _ => exact iff_of_false (hne (by simp [stem])) id
  | instruction o =>
    cases l' with
    | instruction o' => exact offsetText_injective.eq_iff
    | _ => exact iff_of_false (hne (by simp [stem])) id
  | function m =>
    cases l' with
    | function m' => exact String.append_right_inj _
    | _ => exact iff_of_false (hne (by simp [stem])) id
  | argument m k =>
    cases l' with
    | argument m' k' => exact slot_inj
    | _ => exact iff_of_false (hne (by simp [stem])) id
  | localSlot m k =>
    cases l' with
    | localSlot m' k' => exact slot_inj
    | _ => exact iff_of_false (hne (by simp [stem])) id
  | global f =>
    cases l' with
    | global f' => exact String.append_right_inj _
    | _ => exact iff_of_false (hne (by simp [stem])) id
  | predefined symbol =>
    cases l' with
    | predefined symbol' => exact Iff.rfl
    | _ => exact iff_of_false (hne (by simp [stem])) id
  | reserved k =>
    cases l' with
    | reserved k' => exact (String.append_right_inj _).trans toString_inj
    | _ => exact iff_of_false (hne (by simp [stem])) id
  | returnValue m =>
    cases l' with
    | returnValue m' => exact String.append_right_inj _
    | _ => exact iff_of_false (hne (by simp [stem])) id
  | romData f =>
    cases l' with
    | romData f' => exact String.append_right_inj _
    | _ => exact iff_of_false (hne (by simp [stem])) id
  | type t =>
    cases l' with
    | type t' => exact String.append_right_inj _
    | pointerType t' =>
      show "TYPE_" ++ t.symbol = "TYPE_" ++ t'.symbol ++ "_PTR" ↔ _
      rw [String.append_assoc]
      exact String.append_right_inj _
    | _ => exact iff_of_false (hne (by simp [stem])) id
  | pointerType t =>
    cases l' with
    | type t' =>
      show "TYPE_" ++ t.symbol ++ "_PTR" = "TYPE_" ++ t'.symbol ↔ _
      rw [String.append_assoc]
      exact (String.append_right_inj _).trans eq_comm
    | pointerType t' => exact (String.append_left_inj _).trans (String.append_right_inj _)
    | _ => exact iff_of_false (hne (by simp [stem])) id
  | size t =>
    cases l' with
    | size t' => exact String.append_right_inj _
    | pointerSize w =>
      rw [text_pointerSize]
      exact String.append_right_inj _
    | _ => exact iff_of_false (hne (by simp [stem])) id
  | pointerSize w =>
    cases l' with
    | size t =>
      rw [text_pointerSize]
      exact (String.append_right_inj _).trans eq_comm
    | pointerSize w' =>
      rw [text_pointerSize, text_pointerSize, String.append_right_inj]
      exact PointerWidth.symbol_injective.eq_iff
    | _ => exact iff_of_false (hne (by simp [stem])) id

end Label

end Cartridge
