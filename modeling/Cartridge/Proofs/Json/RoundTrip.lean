import Cartridge.Json.Parser
import Cartridge.Json.Printer
import Mathlib.Data.List.Forall2
import Mathlib.Data.List.TakeWhile

/-!
# Documents survive printing and parsing

`Json.compress` writes a document without blanks. A parser sees it token by token: `Json.tokens` are
the tokens of a document.

* `Json.scans_compress`: the text of a document is cut into its tokens, whatever follows, if it does
  not go on a number.
* `Json.build?_tokens`: the tokens of a document are put together to the document.
* **`Json.parse?_compress`**: a document without decimals is parsed as itself.
-/

namespace Cartridge.Json

/-- Induction over documents: what holds of all items or values holds of the array or object. -/
@[elab_as_elim]
theorem induct {motive : Json → Prop} (null : motive .null) (bool : ∀ b, motive (.bool b))
    (number : ∀ n, motive (.number n)) (string : ∀ text, motive (.string text))
    (brokenString : motive .brokenString)
    (array : ∀ items, (∀ item ∈ items, motive item) → motive (.array items))
    (object : ∀ members, (∀ m ∈ members, motive m.2) → motive (.object members)) (j : Json) :
    motive j := by
  -- Documents are nested in lists, so the induction is on their size.
  induction hn : sizeOf j using Nat.strongRecOn generalizing j with
  | ind n ih =>
    subst hn
    cases j with
    | null => exact null
    | bool b => exact bool b
    | number n => exact number n
    | string text => exact string text
    | brokenString => exact brokenString
    | array items =>
      refine array items fun item hitem => ih _ ?_ item rfl
      have hlt := List.sizeOf_lt_of_mem hitem
      simp only [Json.array.sizeOf_spec]
      omega
    | object members =>
      refine object members fun m hm => ih _ ?_ m.2 rfl
      have hlt := List.sizeOf_lt_of_mem hm
      obtain ⟨name, value⟩ := m
      simp only [Json.object.sizeOf_spec, Prod.mk.sizeOf_spec] at hlt ⊢
      omega

/-! ### Documents without decimals -/

mutual

/-- Whether every number is written as an integer. -/
def isIntegral : Json → Bool
  | .number (.decimal _) => false
  | .array items => areIntegralItems items
  | .object members => areIntegralMembers members
  | _ => true

/-- `isIntegral` for every item. -/
def areIntegralItems : List Json → Bool
  | [] => true
  | item :: items => isIntegral item && areIntegralItems items

/-- `isIntegral` for every member. -/
def areIntegralMembers : List (Option String × Json) → Bool
  | [] => true
  | (_, value) :: members => isIntegral value && areIntegralMembers members

end

theorem areIntegralItems_iff {items : List Json} :
    areIntegralItems items = true ↔ ∀ item ∈ items, item.isIntegral = true := by
  induction items with
  | nil => simp [areIntegralItems]
  | cons item items ih => simp [areIntegralItems, ih]

theorem areIntegralMembers_iff {members : List (Option String × Json)} :
    areIntegralMembers members = true ↔ ∀ m ∈ members, m.2.isIntegral = true := by
  induction members with
  | nil => simp [areIntegralMembers]
  | cons m members ih => simp [areIntegralMembers, ih]

@[simp] theorem isIntegral_int (n : Int) : (int n).isIntegral = true := rfl

@[simp] theorem isIntegral_nat (n : Nat) : (nat n).isIntegral = true := rfl

@[simp] theorem isIntegral_string (text : String) : (string text).isIntegral = true := rfl

@[simp] theorem isIntegral_bool (b : Bool) : (bool b).isIntegral = true := rfl

@[simp] theorem isIntegral_record {members : List (String × Json)} :
    (record members).isIntegral = true ↔ ∀ m ∈ members, m.2.isIntegral = true := by
  rw [record, isIntegral, areIntegralMembers_iff, List.forall_mem_map]

@[simp] theorem isIntegral_ofList {α : Type} {write : α → Json} {as : List α} :
    (ofList write as).isIntegral = true ↔ ∀ a ∈ as, (write a).isIntegral = true := by
  rw [ofList, isIntegral, areIntegralItems_iff, List.forall_mem_map]

@[simp] theorem isIntegral_ofOption {α : Type} {write : α → Json} {o : Option α} :
    (ofOption write o).isIntegral = true ↔ ∀ a ∈ o, (write a).isIntegral = true := by
  cases o <;> simp [ofOption, isIntegral]

/-! ### Tokens of a document -/

mutual

/-- The tokens of a document. -/
def tokens : Json → List Token
  | .null => [.null]
  | .bool b => [.bool b]
  | .number n => [.number n]
  | .string text => [.string (some text)]
  | .brokenString => [.string none]
  | .array items => .openArray :: ([Token.comma].intercalate (itemTokens items) ++ [.closeArray])
  | .object members =>
    .openObject :: ([Token.comma].intercalate (memberTokens members) ++ [.closeObject])

/-- The tokens of each item. -/
def itemTokens : List Json → List (List Token)
  | [] => []
  | item :: items => tokens item :: itemTokens items

/-- The tokens of each member. -/
def memberTokens : List (Option String × Json) → List (List Token)
  | [] => []
  | (name, value) :: members => (.string name :: .colon :: tokens value) :: memberTokens members

end

/-- A document does not begin with the end of an array. -/
theorem build?_firstItem (item : Json) (frames : List Frame) (ts : List Token) :
    build? frames .firstItem (tokens item ++ ts) =
      build? (.array [] :: frames) .value (tokens item ++ ts) := by
  cases item <;> simp only [tokens, List.cons_append, List.nil_append, build?]

/-- Items are put together if each of them is. -/
theorem build?_items {item : Json} {items : List Json}
    (h : ∀ i ∈ item :: items, ∀ frames ts,
      build? frames .value (tokens i ++ ts) = build? frames (.after i) ts)
    (done : List Json) (frames : List Frame) (ts : List Token) :
    build? (.array done :: frames) .value
        ([Token.comma].intercalate (itemTokens (item :: items)) ++ .closeArray :: ts) =
      build? frames (.after (.array (done.reverse ++ item :: items))) ts := by
  obtain ⟨hitem, hitems⟩ := List.forall_mem_cons.1 h
  induction items generalizing item done with
  | nil => simp [itemTokens, hitem, build?]
  | cons following items ih =>
    obtain ⟨hfollowing, hrest⟩ := List.forall_mem_cons.1 hitems
    have htokens : [Token.comma].intercalate (itemTokens (item :: following :: items)) =
        tokens item ++
          .comma :: [Token.comma].intercalate (itemTokens (following :: items)) := by
      simp [itemTokens]
    rw [htokens, List.append_assoc, hitem, List.cons_append, build?,
      ih hitems (item :: done) hfollowing hrest]
    simp

/-- Members are put together if each of their values is. -/
theorem build?_members {m : Option String × Json} {members : List (Option String × Json)}
    (h : ∀ m' ∈ m :: members, ∀ frames ts,
      build? frames .value (tokens m'.2 ++ ts) = build? frames (.after m'.2) ts)
    (done : List (Option String × Json)) (frames : List Frame) (ts : List Token) :
    build? frames (.name done)
        ([Token.comma].intercalate (memberTokens (m :: members)) ++ .closeObject :: ts) =
      build? frames (.after (.object (done.reverse ++ m :: members))) ts := by
  obtain ⟨hm, hmembers⟩ := List.forall_mem_cons.1 h
  induction members generalizing m done with
  | nil => simp [memberTokens, build?, hm]
  | cons following members ih =>
    obtain ⟨hfollowing, hrest⟩ := List.forall_mem_cons.1 hmembers
    have htokens : [Token.comma].intercalate (memberTokens (m :: following :: members)) =
        .string m.1 :: .colon :: (tokens m.2 ++
          .comma :: [Token.comma].intercalate (memberTokens (following :: members))) := by
      simp [memberTokens]
    rw [htokens, List.cons_append, build?, List.cons_append, build?, List.append_assoc, hm,
      List.cons_append, build?, ih hmembers (m :: done) hfollowing hrest]
    simp

/-- **The tokens of a document are put together to the document**, whatever is open. -/
theorem build?_tokens (j : Json) : ∀ (frames : List Frame) (ts : List Token),
    build? frames .value (tokens j ++ ts) = build? frames (.after j) ts := by
  induction j using induct with
  | null | bool b | number n | string text | brokenString => simp [tokens, build?, ofScalar?]
  | array items ih =>
    intro frames ts
    cases items with
    | nil => simp [tokens, itemTokens, build?]
    | cons item items =>
      have hitems := build?_items ih [] frames ts
      have hfirst : ∀ rest, build? frames .firstItem
          ([Token.comma].intercalate (itemTokens (item :: items)) ++ rest) =
          build? (.array [] :: frames) .value
            ([Token.comma].intercalate (itemTokens (item :: items)) ++ rest) := by
        intro rest
        cases items <;> simp [itemTokens, build?_firstItem]
      rw [tokens, List.cons_append, List.append_assoc, build?, List.singleton_append, hfirst,
        hitems]
      rfl
  | object members ih =>
    intro frames ts
    cases members with
    | nil => simp [tokens, memberTokens, build?]
    | cons m members =>
      have hmembers := build?_members ih [] frames ts
      have hfirst : ∀ rest, build? frames .firstName
          ([Token.comma].intercalate (memberTokens (m :: members)) ++ rest) =
          build? frames (.name [])
            ([Token.comma].intercalate (memberTokens (m :: members)) ++ rest) := by
        intro rest
        cases members <;> simp [memberTokens, build?]
      rw [tokens, List.cons_append, List.append_assoc, build?, List.singleton_append, hfirst,
        hmembers]
      rfl

/-! ### Numbers -/

namespace Number

theorem digitChar_ne_zero : ∀ d < 10, d ≠ 0 → some d.digitChar ≠ some '0' := by decide

theorem head?_toDigits {n : Nat} (hn : n ≠ 0) : (Nat.toDigits 10 n).head? ≠ some '0' := by
  induction n using Nat.strongRecOn with
  | ind n ih =>
    by_cases hlt : n < 10
    · rw [Nat.toDigits_of_lt_base hlt]
      exact digitChar_ne_zero n hlt hn
    · have hdiv : n / 10 ≠ 0 := by omega
      have hhead := ih (n / 10) (by omega) hdiv
      obtain ⟨c, cs, hcs⟩ :=
        List.exists_cons_of_ne_nil (Nat.toDigits_ne_nil : Nat.toDigits 10 (n / 10) ≠ [])
      rw [Nat.toDigits_of_base_le (by decide) (Nat.le_of_not_lt hlt), hcs]
      rwa [hcs] at hhead

theorem isDigit_of_mem_toDigits {n : Nat} : ∀ c ∈ Nat.toDigits 10 n, c.isDigit = true :=
  fun _ hc => Nat.isDigit_of_mem_toDigits (by decide) (by decide) hc

theorem isWhole_toDigits (n : Nat) : isWhole (Nat.toDigits 10 n) = true := by
  by_cases hn : n = 0
  · subst hn
    decide
  · have hhead := head?_toDigits hn
    simp [isWhole, Nat.toDigits_ne_nil, hhead]

theorem takeWhile_toDigits (n : Nat) :
    (Nat.toDigits 10 n).takeWhile Char.isDigit = Nat.toDigits 10 n :=
  List.takeWhile_eq_self_iff.2 isDigit_of_mem_toDigits

theorem dropWhile_toDigits (n : Nat) : (Nat.toDigits 10 n).dropWhile Char.isDigit = [] :=
  List.dropWhile_eq_nil_iff.2 isDigit_of_mem_toDigits

theorem digitsValue_toDigits (n : Nat) : digitsValue (Nat.toDigits 10 n) = n :=
  Nat.ofDigitChars_ten_toDigits

theorem ofChars?_toDigits (n : Nat) : ofChars? (Nat.toDigits 10 n) = some (.integer n) := by
  have hminus : (Nat.toDigits 10 n).head? ≠ some '-' := fun h =>
    absurd (isDigit_of_mem_toDigits _ (List.mem_of_mem_head? h)) (by decide)
  simp [ofChars?, hminus, takeWhile_toDigits, dropWhile_toDigits, isWhole_toDigits,
    digitsValue_toDigits]

theorem ofChars?_neg_toDigits {n : Nat} (hn : n ≠ 0) :
    ofChars? ('-' :: Nat.toDigits 10 n) = some (.integer (-n)) := by
  have hzero : Nat.toDigits 10 n ≠ ['0'] := fun h => head?_toDigits hn (by rw [h]; rfl)
  simp [ofChars?, takeWhile_toDigits, dropWhile_toDigits, isWhole_toDigits, digitsValue_toDigits,
    hzero]

theorem toList_print_natCast (n : Nat) :
    (Number.integer n).print.toList = Nat.toDigits 10 n := by
  rw [print, Int.toString_eq_repr, Int.repr_eq_if, if_pos (Int.natCast_nonneg n), Int.toNat_natCast,
    Nat.toList_repr]

theorem toList_print_negSucc (n : Nat) :
    (Number.integer (.negSucc n)).print.toList = '-' :: Nat.toDigits 10 (n + 1) := by
  rw [print, Int.toString_eq_repr, Int.repr_eq_if, if_neg (by omega), String.toList_append,
    Nat.toList_repr]
  rfl

end Number

/-! ### Strings -/

namespace Token

/-- A control character is written with four digits, two of them zero. -/
theorem toList_hexLower : ∀ n < 0x20, (Text.hexLower 4 n).toList =
    ['0', '0', (n / 16).digitChar, (n % 16).digitChar] := by decide

theorem codeUnit?_hexLower : ∀ n < 0x20,
    codeUnit? '0' '0' (n / 16).digitChar (n % 16).digitChar = some n := by decide

theorem scanString_plain {c : Char} (hquote : c ≠ '"') (hslash : c ≠ '\\')
    (hcontrol : ¬c.toNat < 0x20) (done : List Nat) (cs : List Char) :
    scanString done (c :: cs) = scanString (c.toNat :: done) cs := by
  rw [scanString]
  · simp [hslash, hcontrol]
  · exact hquote
  · exact fun _ _ _ _ _ h => absurd h hslash
  · exact fun _ _ h => absurd h hslash

/-- A character comes back from what is written for it. -/
theorem scanString_escapeChar (done : List Nat) (c : Char) (cs : List Char) :
    scanString done ((escapeChar c).toList ++ cs) = scanString (c.toNat :: done) cs := by
  unfold escapeChar
  split
  case h_8 c hquote hslash _ _ _ _ _ =>
    split
    · next hcontrol =>
      rw [String.toList_append, toList_hexLower _ hcontrol]
      have hunit := codeUnit?_hexLower _ hcontrol
      simp [scanString, hunit]
    · next hplain =>
      rw [Char.toString, String.toList_singleton, List.singleton_append,
        scanString_plain hquote hslash hplain]
  all_goals simp [scanString, shortEscape?]

/-- A text is scanned up to its closing quote. -/
theorem scanString_text (done : List Nat) (text rest : List Char) :
    scanString done (text.flatMap (fun c => (escapeChar c).toList) ++ '"' :: rest) =
      some ((text.map Char.toNat).reverse ++ done, rest) := by
  induction text generalizing done with
  | nil => simp [scanString]
  | cons c text ih =>
    rw [List.flatMap_cons, List.append_assoc, scanString_escapeChar, ih]
    simp

/-- Characters are no halves of surrogate pairs. -/
theorem joinUnits_toNat (text cs : List Char) :
    joinUnits text (cs.map Char.toNat) = some (cs.reverse ++ text) := by
  have hvalid : ∀ c : Char, isLowSurrogate c.toNat = false ∧ isHighSurrogate c.toNat = false := by
    intro c
    have hc : c.toNat < 0xD800 ∨ 0xDFFF < c.toNat ∧ c.toNat < 0x110000 := c.valid
    simp only [isLowSurrogate, isHighSurrogate, Bool.and_eq_false_iff, decide_eq_false_iff_not]
    omega
  induction cs generalizing text with
  | nil => rfl
  | cons c cs ih =>
    obtain ⟨hlow, hhigh⟩ := hvalid c
    cases cs with
    | nil => simp [joinUnits, hlow, hhigh]
    | cons d cs =>
      rw [List.map_cons, List.map_cons, joinUnits, if_neg (by simp [hlow]),
        if_neg (by simp [hhigh]), Char.ofNat_toNat, ← List.map_cons, ih]
      simp

theorem toList_printString (text : String) :
    (printString text).toList =
      '"' :: (text.toList.flatMap (fun c => (escapeChar c).toList) ++ ['"']) := by
  have hfold : ∀ (cs : List Char) (out : String),
      (cs.foldl (fun out c => out ++ escapeChar c) out).toList =
        out.toList ++ cs.flatMap fun c => (escapeChar c).toList := by
    intro cs
    induction cs with
    | nil => simp
    | cons c cs ih => simp [ih]
  rw [printString, String.toList_append, String.foldl_eq_foldl_toList, hfold]
  rfl

/-! ### Scanning -/

/-- A text in front of `rest` is cut into tokens, whichever were cut before. -/
def Scans (cs : List Char) (ts : List Token) (rest : List Char) : Prop :=
  ∀ done, scanFrom? done (cs ++ rest) = scanFrom? (ts.reverse ++ done) rest

namespace Scans

variable {cs cs' rest : List Char} {ts ts' : List Token} {t : Token}

theorem of_next (h : next (cs ++ rest) = .token t rest) : Scans cs [t] rest := by
  intro done
  rw [scanFrom?]
  split
  · next heq =>
    rw [h] at heq
    cases heq
  · next heq =>
    rw [h] at heq
    cases heq
  · next heq =>
    rw [h] at heq
    cases heq
    rfl

theorem append (h : Scans cs ts (cs' ++ rest)) (h' : Scans cs' ts' rest) :
    Scans (cs ++ cs') (ts ++ ts') rest := by
  intro done
  rw [List.append_assoc, h, h', List.reverse_append, List.append_assoc]

theorem nil (rest : List Char) : Scans [] [] rest := fun _ => rfl

end Scans

/-- What cannot go on a number. -/
def EndsNumber (rest : List Char) : Prop := ∀ c ∈ rest.head?, isNumberChar c = false

theorem EndsNumber.split {rest : List Char} (h : EndsNumber rest) {cs : List Char}
    (hcs : ∀ c ∈ cs, isNumberChar c = true) :
    (cs ++ rest).takeWhile isNumberChar = cs ∧ (cs ++ rest).dropWhile isNumberChar = rest := by
  rw [List.takeWhile_append_of_pos hcs, List.dropWhile_append_of_pos hcs]
  cases rest with
  | nil => simp
  | cons c rest => simp [h c rfl]

/-- The spelling of a number is one token. -/
theorem scans_number {c : Char} {cs rest : List Char}
    (hchars : ∀ d ∈ c :: cs, isNumberChar d = true) (hrest : EndsNumber rest) {n : Number}
    (hn : Number.ofChars? (c :: cs) = some n) : Scans (c :: cs) [.number n] rest := by
  obtain ⟨hc, hcs⟩ := List.forall_mem_cons.1 hchars
  obtain ⟨htake, hdrop⟩ := hrest.split hcs
  have hspace : ¬isSpace c = true := by
    intro hspace
    simp only [isSpace, Bool.or_eq_true, beq_iff_eq] at hspace
    rcases hspace with ((rfl | rfl) | rfl) | rfl <;> exact absurd hc (by decide)
  refine .of_next ?_
  rw [List.cons_append, next, List.dropWhile_cons_of_neg hspace]
  split
  case h_1 heq => cases heq
  case h_12 heq =>
    cases heq
    rw [htake, hdrop, hn]
  -- Every other case is about a character that cannot occur in numbers.
  all_goals
    rename_i heq
    obtain ⟨rfl, -⟩ := List.cons.inj heq
    exact absurd hc (by decide)

theorem isNumberChar_of_isDigit {c : Char} (h : c.isDigit = true) : isNumberChar c = true := by
  simp [isNumberChar, h]

theorem scans_integer (n : Int) {rest : List Char} (hrest : EndsNumber rest) :
    Scans (Number.integer n).print.toList [.number (.integer n)] rest := by
  cases n with
  | ofNat n =>
    obtain ⟨c, cs, hcs⟩ :=
      List.exists_cons_of_ne_nil (Nat.toDigits_ne_nil : Nat.toDigits 10 n ≠ [])
    rw [Int.ofNat_eq_natCast, Number.toList_print_natCast, hcs]
    refine scans_number (fun d hd => ?_) hrest (hcs ▸ Number.ofChars?_toDigits n)
    exact isNumberChar_of_isDigit (Number.isDigit_of_mem_toDigits d (hcs ▸ hd))
  | negSucc n =>
    rw [Number.toList_print_negSucc]
    refine scans_number (List.forall_mem_cons.2 ⟨by decide, fun d hd => ?_⟩) hrest
      (Number.ofChars?_neg_toDigits n.succ_ne_zero)
    exact isNumberChar_of_isDigit (Number.isDigit_of_mem_toDigits d hd)

/-- A string is one token. -/
theorem scans_string (text : String) (rest : List Char) :
    Scans (printString text).toList [.string (some text)] rest := by
  refine .of_next ?_
  rw [toList_printString, List.cons_append, List.append_assoc, List.singleton_append, next,
    List.dropWhile_cons_of_neg (by decide)]
  simp only [scanString_text, List.append_nil, ← List.map_reverse, joinUnits_toNat,
    List.reverse_reverse, Option.map_some, String.ofList_toList]

theorem scans_name (name : Option String) (rest : List Char) :
    Scans (printName name).toList [.string name] rest := by
  cases name with
  | some name => exact scans_string name rest
  | none =>
    have hunit : codeUnit? 'd' '8' '0' '0' = some 0xD800 := by decide
    have hjoin : joinUnits [] [0xD800] = none := by decide
    refine .of_next ?_
    simp [printName, next, isSpace, scanString, hunit, hjoin]

theorem endsNumber_cons {c : Char} (hc : isNumberChar c = false) (rest : List Char) :
    EndsNumber (c :: rest) := by
  rintro _ ⟨⟩
  exact hc

end Token

open Token

/-- Texts with commas between them are cut into their tokens with commas between them. -/
theorem scans_intercalate {texts : List String} {parts : List (List Token)}
    (h : List.Forall₂ (fun text part => ∀ rest, EndsNumber rest → Scans text.toList part rest)
      texts parts) {rest : List Char} (hrest : EndsNumber rest) :
    Scans (",".intercalate texts).toList ([Token.comma].intercalate parts) rest := by
  induction h with
  | nil => exact .nil rest
  | @cons text part texts parts hfirst hall ih =>
    cases hall with
    | nil =>
      rw [String.intercalate_singleton, List.intercalate_singleton]
      exact hfirst rest hrest
    | @cons text' part' texts parts _ _ =>
      have hcomma : Scans [','] [.comma]
          ((",".intercalate (text' :: texts)).toList ++ rest) := .of_next rfl
      rw [String.intercalate_cons_cons, String.toList_append, String.toList_append,
        List.intercalate_cons_cons]
      -- The comma ends a number before it.
      refine Scans.append ((hfirst _ ?_).append hcomma) ih
      exact endsNumber_cons (by decide) _

theorem scans_items {items : List Json}
    (h : ∀ item ∈ items, ∀ rest, EndsNumber rest → Scans item.compress.toList (tokens item) rest) :
    List.Forall₂ (fun text part => ∀ rest, EndsNumber rest → Scans text.toList part rest)
      (compressItems items) (itemTokens items) := by
  induction items with
  | nil => exact .nil
  | cons item items ih =>
    obtain ⟨hitem, hitems⟩ := List.forall_mem_cons.1 h
    exact .cons hitem (ih hitems)

theorem scans_members {members : List (Option String × Json)}
    (h : ∀ m ∈ members, ∀ rest, EndsNumber rest → Scans m.2.compress.toList (tokens m.2) rest) :
    List.Forall₂ (fun text part => ∀ rest, EndsNumber rest → Scans text.toList part rest)
      (compressMembers members) (memberTokens members) := by
  induction members with
  | nil => exact .nil
  | cons m members ih =>
    obtain ⟨hm, hmembers⟩ := List.forall_mem_cons.1 h
    refine .cons (fun rest hrest => ?_) (ih hmembers)
    have hcolon : Scans [':'] [.colon] (m.2.compress.toList ++ rest) := .of_next rfl
    rw [String.toList_append, String.toList_append]
    exact ((scans_name m.1 _).append hcolon).append (hm rest hrest)

/-- Brackets around what is cut into tokens. -/
theorem scans_enclosed {opening closing : Char} {first last : Token}
    (hfirst : ∀ rest, next (opening :: rest) = .token first rest)
    (hlast : ∀ rest, next (closing :: rest) = .token last rest)
    (hclosing : isNumberChar closing = false) {text : String} {ts : List Token}
    (h : ∀ rest, EndsNumber rest → Scans text.toList ts rest) (rest : List Char) :
    Scans (opening :: (text.toList ++ [closing])) (first :: (ts ++ [last])) rest := by
  have hopen : Scans [opening] [first] (text.toList ++ [closing] ++ rest) := .of_next (hfirst _)
  have hclose : Scans [closing] [last] rest := .of_next (hlast _)
  exact hopen.append ((h _ (endsNumber_cons hclosing _)).append hclose)

/-- **The text of a document is cut into its tokens.** -/
theorem scans_compress (j : Json) (h : j.isIntegral = true) :
    ∀ rest, EndsNumber rest → Scans j.compress.toList (tokens j) rest := by
  induction j using induct with
  | null => exact fun rest _ => .of_next rfl
  | bool b => exact fun rest _ => by cases b <;> exact .of_next rfl
  | number n =>
    cases n with
    | integer n => exact fun rest hrest => scans_integer n hrest
    | decimal text => cases h
  | string text => exact fun rest _ => scans_string text rest
  | brokenString => exact fun rest _ => scans_name none rest
  | array items ih =>
    have hall := areIntegralItems_iff.1 h
    have hitems := scans_items fun item hitem => ih item hitem (hall item hitem)
    intro rest _
    rw [compress, String.toList_append, String.toList_append]
    exact scans_enclosed (fun _ => rfl) (fun _ => rfl) (by decide)
      (fun rest hrest => scans_intercalate hitems hrest) rest
  | object members ih =>
    have hall := areIntegralMembers_iff.1 h
    have hmembers := scans_members fun m hm => ih m hm (hall m hm)
    intro rest _
    rw [compress, String.toList_append, String.toList_append]
    exact scans_enclosed (fun _ => rfl) (fun _ => rfl) (by decide)
      (fun rest hrest => scans_intercalate hmembers hrest) rest

/-- **A document without decimals is parsed as itself.** -/
theorem parse?_compress {j : Json} (h : j.isIntegral = true) : parse? j.compress = some j := by
  have hscan : Token.scan? j.compress = some (tokens j) := by
    have hall := scans_compress j h [] (by simp [EndsNumber]) []
    rw [List.append_nil, List.append_nil] at hall
    rw [Token.scan?, hall, Token.scanFrom?]
    simp [next]
  have hbuild := build?_tokens j [] []
  rw [List.append_nil] at hbuild
  rw [parse?, hscan, Option.bind_some, hbuild, build?]

end Cartridge.Json
