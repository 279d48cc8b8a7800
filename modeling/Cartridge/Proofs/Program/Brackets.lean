import Cartridge.Proofs.Program.Closed
import Cartridge.Proofs.Routine.Views
import Cartridge.Proofs.Selection.Macros

/-!
# Brackets

The label of a routine, the start of an inlined body and the start of a block are opening brackets.
A routine and an inlined body are closed by the end of a function, a block by the end of a block.
Selection opens an inlined body, the body itself brings its block and its end, and the frame of a
routine comes last, after all passes; the passes leave brackets alone (`stable_bracket?`).

* `Nesting n bs`: the brackets `bs` are well nested, without a routine, and `n` blocks stand at the
  outermost level. An inlined body has exactly one block.
* `Routine.Bracketed`: a routine opens at its label and closes at its last entry, with a nesting
  between.
* **`Program.wellBracketed_of_compile`**: all routines of a program are bracketed, its text is never
  unindented too far, and it is not indented around routines and in the data at its end.
-/

namespace Cartridge

/-- A bracket; `routine` and `inlined` are closed by `endFunction`, `block` by `endBlock`. -/
inductive Bracket where
  | routine
  | inlined
  | block
  | endFunction
  | endBlock
deriving DecidableEq, Repr

/-- The bracket that an entry is. -/
def Entry.bracket? : Entry → Option Bracket
  | .label (.function _) => some .routine
  | .inlineFunction .. => some .inlined
  | .directive .beginBlock => some .block
  | .endFunction => some .endFunction
  | .directive .endBlock => some .endBlock
  | _ => none

/-- The brackets of a stream. -/
def brackets (es : List Entry) : List Bracket := es.filterMap (·.bracket?)

/-- Well nested brackets with `n` blocks at the outermost level. -/
inductive Nesting : Nat → List Bracket → Prop where
  | nil : Nesting 0 []
  | inlined {n : Nat} {inner rest : List Bracket} (hinner : Nesting 1 inner)
      (hrest : Nesting n rest) : Nesting n (.inlined :: inner ++ .endFunction :: rest)
  | block {k n : Nat} {inner rest : List Bracket} (hinner : Nesting k inner)
      (hrest : Nesting n rest) : Nesting (n + 1) (.block :: inner ++ .endBlock :: rest)

theorem Nesting.append {k n : Nat} {as bs : List Bracket} (ha : Nesting k as)
    (hb : Nesting n bs) : Nesting (k + n) (as ++ bs) := by
  induction ha with
  | nil => simpa using hb
  | inlined hinner _ _ ih => simpa using Nesting.inlined hinner ih
  | @block k n inner rest hinner _ _ ih =>
    rw [Nat.add_right_comm]
    simpa using Nesting.block hinner ih

/-! ### Passes over a stream -/

section Streams

variable {es : List Entry}

@[simp] theorem brackets_append (es es' : List Entry) :
    brackets (es ++ es') = brackets es ++ brackets es' := List.filterMap_append

theorem brackets_cons (e : Entry) (es : List Entry) :
    brackets (e :: es) = e.bracket?.toList ++ brackets es := by
  cases h : e.bracket? <;> simp [brackets, h]

theorem brackets_eq_nil (h : ∀ e ∈ es, e.bracket? = none) : brackets es = [] :=
  List.filterMap_eq_nil_iff.2 h

theorem nesting_flatMap {α : Type} {f : α → List Entry} {as : List α}
    (h : ∀ a ∈ as, Nesting 0 (brackets (f a))) : Nesting 0 (brackets (as.flatMap f)) := by
  induction as with
  | nil => exact .nil
  | cons a as ih =>
    obtain ⟨ha, has⟩ := List.forall_mem_cons.1 h
    rw [List.flatMap_cons, brackets_append]
    exact ha.append (ih has)

/-- **No pass changes brackets.** -/
theorem stable_bracket? : Stable Entry.bracket? where
  replace h := by cases h <;> rfl
  arrayLet e h := by
    cases e with
    | directive d =>
      cases d with
      | arrayLet array elements => rfl
      | _ => cases h
    | _ => cases h
  jump stop e := by
    unfold Routine.jumpInstead
    split <;> rfl

end Streams

/-! ### Routines -/

namespace Routine

variable {ctx : Context} {m : Member} {r : Routine} {inline : Member → Except Error Routine}

/-- A body that can be put after the start of an inlined body: one block, and the end. -/
def Inlinable (r : Routine) : Prop :=
  ∃ inner, Nesting 1 inner ∧ brackets r.body = inner ++ [.endFunction]

/-- A routine opens at its label and closes with its last entry. -/
def Bracketed (r : Routine) : Prop :=
  ∃ inner, r.body = .comment ("Begin " ++ r.method.fullName) :: .label (.function r.method) ::
    inner ++ [.endFunction] ∧ Nesting 0 (brackets inner)

theorem brackets_wrapInline (m : Member) (es : List Entry) :
    brackets (wrapInline m es) = .block :: brackets es ++ [.endBlock] := by
  have hjumps : brackets (es.map (jumpInstead (inlineEnd m))) = brackets es :=
    stable_bracket?.of_jumps _ es
  rw [wrapInline, List.cons_append, brackets_cons, brackets_append, hjumps]
  rfl

theorem brackets_frame (what : String) (es : List Entry) :
    brackets (frame what es) = brackets es ++ [.endFunction] := by
  rw [frame, List.cons_append, brackets_cons, brackets_append]
  rfl

theorem Inlinable.nesting (h : r.Inlinable) (callee : Member) (site : Option Instruction) :
    Nesting 0 (brackets (.inlineFunction callee site :: r.body)) := by
  obtain ⟨inner, hinner, hbody⟩ := h
  rw [brackets_cons, hbody]
  exact .inlined hinner .nil

/-- An instruction has no brackets except around what is inlined. -/
theorem nesting_of_becomes {s : Site} {i : Instruction} {es : List Entry} (h : s.Becomes i es)
    (hinline : ∀ callee body, s.inline callee = .ok body → body.Inlinable) :
    Nesting 0 (brackets es) := by
  cases h with
  | idle ho => exact .nil
  | ignored callee d ho hoperand hd hmarker => exact .nil
  | placeholder p => exact .nil
  | op hop => exact .nil
  | inlined callee body hbody => exact (hinline callee body hbody).nesting callee (some i)

theorem nesting_selectBody {sel : Selection} (h : selectBody ctx inline m = .ok sel)
    (hinline : ∀ callee body, inline callee = .ok body → body.Inlinable) :
    Nesting 0 (brackets sel.entries) := by
  obtain ⟨d, -, h⟩ := bind_eq_ok.1 h
  obtain ⟨parts, hparts, h⟩ := bind_eq_ok.1 h
  cases pure_eq_ok.1 h
  refine nesting_flatMap fun part hpart => ?_
  obtain ⟨i, -, hi⟩ := exists_of_mem_mapM hparts hpart
  obtain ⟨selected, hselected, hi⟩ := bind_eq_ok.1 hi
  cases pure_eq_ok.1 hi
  have hlabel : brackets (labelAt (targets d.body) i) = [] := by
    unfold labelAt
    split <;> rfl
  rw [brackets_append, hlabel, List.nil_append]
  exact nesting_of_becomes (Site.becomes_of_select hselected) hinline

/-- **Inlined bodies nest**, however deep they are put into one another. -/
theorem inlinable_of_inlined (chain : List Member) (h : inlined ctx chain m = .ok r) :
    r.Inlinable := by
  let P (x : Except Error Routine) : Prop := ∀ r, x = .ok r → r.Inlinable
  have hall : P (inlined ctx chain m) := by
    refine descend_induction (P := P) ?_ ?_ ?_ chain m
    · exact fun chain m => nofun
    · exact fun m => nofun
    · intro chain inline m hinline r h
      obtain ⟨sel, hsel, h⟩ := bind_eq_ok.1 h
      obtain ⟨body, hbody, h⟩ := bind_eq_ok.1 h
      cases pure_eq_ok.1 h
      have hbrackets : brackets body = brackets (wrapInline m sel.entries) :=
        stable_bracket?.of_optimize hbody
      have hwrapped : Nesting 1 (.block :: brackets sel.entries ++ [.endBlock]) :=
        .block (nesting_selectBody hsel hinline) .nil
      rw [← brackets_wrapInline m, ← hbrackets] at hwrapped
      exact ⟨brackets body, hwrapped, brackets_frame _ body⟩
  exact hall r h

theorem inlinable_of_inlineInto (chain : List Member) (m : Member) (r : Routine)
    (h : inlineInto ctx chain m = .ok r) : r.Inlinable := by
  unfold inlineInto at h
  split at h
  · cases h
  · exact inlinable_of_inlined chain h

theorem bracketed_of_finish {body : List Entry} {lifted : List Label}
    (h : finish ctx m body lifted = .ok r) (hbody : Nesting 0 (brackets body)) : r.Bracketed := by
  obtain ⟨optimized, hoptimized, h⟩ := bind_eq_ok.1 h
  obtain ⟨tracked, htracked, h⟩ := bind_eq_ok.1 h
  cases pure_eq_ok.1 h
  have hbrackets : brackets tracked = brackets body :=
    (stable_bracket?.of_track htracked).trans (stable_bracket?.of_optimize hoptimized)
  refine ⟨tracked ++ [.comment ("End " ++ m.fullName)], by simp [frame], ?_⟩
  rw [brackets_append, hbrackets]
  exact hbody.append .nil

theorem bracketed_of_compile (h : compile ctx m = .ok r) : r.Bracketed := by
  obtain ⟨sel, hsel, h⟩ := bind_eq_ok.1 h
  exact bracketed_of_finish h (nesting_selectBody hsel (inlinable_of_inlineInto [m]))

theorem bracketed_of_compileEntryPoint (h : compileEntryPoint ctx m = .ok r) : r.Bracketed := by
  obtain ⟨sel, hsel, h⟩ := bind_eq_ok.1 h
  obtain ⟨inits, hinits, h⟩ := bind_eq_ok.1 h
  have hprologue : Nesting 0 (brackets (prologue inits)) := by
    rw [prologue, brackets_cons]
    refine nesting_flatMap fun init hinit => ?_
    obtain ⟨i, -, hi⟩ := exists_of_mem_mapM hinits hinit
    exact (inlinable_of_inlined [m] hi).nesting init.method none
  refine bracketed_of_finish h ?_
  rw [brackets_append]
  exact hprologue.append (nesting_selectBody hsel (inlinable_of_inlineInto [m]))

end Routine

/-! ### Indentation -/

namespace Listing

/-- The number of bodies that are open after a stream: what follows is indented by it. -/
def depth (es : List Entry) : Nat := es.foldl depthAfter 0

theorem lines_append (c : Commentary) (n : Nat) (es es' : List Entry) :
    lines c n (es ++ es') = lines c n es ++ lines c (es.foldl depthAfter n) es' := by
  induction es generalizing n with
  | nil => rfl
  | cons e es ih => simp [lines, ih]

theorem lines_append_cons (c : Commentary) (before : List Entry) (e : Entry)
    (after : List Entry) :
    lines c 0 (before ++ e :: after) =
      lines c 0 before ++ linesOf c (depth before) e ++ lines c (depth (before ++ [e])) after := by
  have hdepth : depth (before ++ [e]) = depthAfter (depth before) e := by simp [depth]
  rw [lines_append, hdepth, List.append_assoc]
  rfl

end Listing

namespace Bracket

/-- The number of open bodies after a bracket, if a body is open that it closes, and if no routine
opens inside of a body. -/
def step? (depth : Nat) : Bracket → Option Nat
  | .routine => if depth = 0 then some 1 else none
  | .inlined => some (depth + 1)
  | .endFunction => if depth = 0 then none else some (depth - 1)
  | .block | .endBlock => some depth

/-- The number of open bodies after brackets, if there is no misplaced one. -/
def run? (bs : List Bracket) (depth : Nat) : Option Nat := bs.foldlM step? depth

variable {as bs : List Bracket} {b : Bracket} {n k : Nat}

@[simp] theorem run?_append : run? (as ++ bs) n = (run? as n).bind (run? bs ·) :=
  List.foldlM_append

@[simp] theorem run?_cons : run? (b :: bs) n = (step? n b).bind (run? bs ·) := List.foldlM_cons

@[simp] theorem run?_nil : run? [] n = some n := rfl

end Bracket

open Cartridge.Bracket

/-- **A nesting leaves the indentation as it is**, at any depth. -/
theorem Nesting.run?_eq {k : Nat} {bs : List Bracket} (h : Nesting k bs) (n : Nat) :
    run? bs n = some n := by
  induction h generalizing n with
  | nil => rfl
  | inlined _ _ ihinner ih => simp [step?, ihinner, ih]
  | block _ _ ihinner ih => simp [step?, ihinner, ih]

namespace Listing

variable {es before after : List Entry} {e : Entry} {n k : Nat}

theorem depthAfter_of_run? (h : run? e.bracket?.toList n = some k) : depthAfter n e = k := by
  unfold Entry.bracket? at h
  split at h
  · obtain ⟨rfl, rfl⟩ : n = 0 ∧ 1 = k := by simpa [step?] using h
    rfl
  · exact Option.some.inj h
  · exact Option.some.inj h
  · obtain ⟨-, rfl⟩ : ¬n = 0 ∧ n - 1 = k := by simpa [step?] using h
    rfl
  · exact Option.some.inj h
  · unfold depthAfter
    split <;> simp_all

/-- The text is indented as the brackets say, if none of them is misplaced. -/
theorem foldl_depthAfter_of_run? (h : run? (brackets es) n = some k) :
    es.foldl depthAfter n = k := by
  induction es generalizing n with
  | nil => exact Option.some.inj h
  | cons e es ih =>
    rw [brackets_cons, run?_append] at h
    obtain ⟨j, hj, hk⟩ := Option.bind_eq_some_iff.1 h
    rw [List.foldl_cons, depthAfter_of_run? hj]
    exact ih hk

/-- No bracket before a part of a stream and none in it is misplaced. -/
theorem run?_of_append (h : run? (brackets (before ++ es ++ after)) 0 = some k) :
    ∃ j, run? (brackets es) (depth before) = some j ∧ depth (before ++ es) = j := by
  simp only [brackets_append, run?_append, Option.bind_eq_some_iff] at h
  obtain ⟨j, ⟨i, hi, hj⟩, -⟩ := h
  have hbefore : depth before = i := foldl_depthAfter_of_run? hi
  refine ⟨j, hbefore ▸ hj, foldl_depthAfter_of_run? ?_⟩
  rw [brackets_append, run?_append, hi]
  exact hj

end Listing

theorem Routine.Bracketed.run?_eq {r : Routine} (h : r.Bracketed) (n : Nat) :
    run? (brackets r.body) n = if n = 0 then some 0 else none := by
  obtain ⟨inner, hbody, hinner⟩ := h
  have hbrackets : brackets r.body = .routine :: brackets inner ++ [.endFunction] := by
    rw [hbody, List.cons_append, List.cons_append, brackets_cons, brackets_cons, brackets_append]
    rfl
  rw [hbrackets]
  by_cases hn : n = 0
  · simp [hn, step?, hinner.run?_eq]
  · simp [hn, step?]

namespace Program

open Listing (depth)

variable {ctx : Context} {date : String} {p : Program}

theorem bracketed_of_mem_all (h : compile ctx date = .ok p) {r : Routine} (hr : r ∈ p.all) :
    r.Bracketed := by
  obtain ⟨entry, blocks, hentry, hdiscovered, -⟩ := of_compile h
  rcases List.mem_cons.1 hr with rfl | hr
  · exact Routine.bracketed_of_compileEntryPoint hentry
  · exact Routine.bracketed_of_compile (hdiscovered.compiled r hr)

theorem brackets_assignments (h : compile ctx date = .ok p) :
    brackets p.resolution.assignments = [] := by
  obtain ⟨entry, blocks, -, -, hresolution, -, -⟩ := of_compile h
  obtain ⟨placed, types, hassignments, hplaced, htypes, -⟩ := Resolution.of_ofRoutines hresolution
  refine brackets_eq_nil fun e he => ?_
  rw [hassignments, List.mem_append, List.mem_append] at he
  rcases he with (he | he) | he
  · obtain ⟨l, value, rfl⟩ := hplaced.of_mem he
    rfl
  · obtain ⟨a, -, rfl⟩ := List.mem_map.1 he
    rfl
  · obtain ⟨l, value, rfl⟩ := htypes.of_mem he
    rfl

theorem brackets_data (blocks : List RomBlock) :
    brackets (blocks.flatMap Listing.romEntries ++ Listing.vectors) = [] := by
  refine brackets_eq_nil fun e he => ?_
  rcases List.mem_append.1 he with he | he
  · obtain ⟨b, -, he⟩ := List.mem_flatMap.1 he
    simp only [Listing.romEntries, List.mem_cons, List.mem_map] at he
    rcases he with rfl | rfl | ⟨byte, -, rfl⟩ <;> rfl
  · simp only [Listing.vectors, List.mem_cons, List.not_mem_nil, or_false] at he
    rcases he with rfl | rfl | rfl | rfl <;> rfl

theorem run?_routines {rs : List Routine} (h : ∀ r ∈ rs, r.Bracketed) :
    run? (brackets (rs.flatMap fun r => .blank :: r.body)) 0 = some 0 := by
  induction rs with
  | nil => rfl
  | cons r rs ih =>
    obtain ⟨hr, hrs⟩ := List.forall_mem_cons.1 h
    rw [List.flatMap_cons, List.cons_append, brackets_cons, brackets_append]
    simp [Entry.bracket?, hr.run?_eq, ih hrs]

/-- A program is its code, in which every body that is opened is closed again, and its data. -/
theorem entries_eq (h : compile ctx date = .ok p) :
    ∃ code blocks, Listing.romBlocks ctx.program p.all = .ok blocks ∧
      p.entries = code ++ (blocks.flatMap Listing.romEntries ++ Listing.vectors) ∧
      run? (brackets code) 0 = some 0 ∧ ∀ r ∈ p.all, r.body <:+: code := by
  have hassignments := brackets_assignments h
  have hbracketed := fun r hr => bracketed_of_mem_all h (r := r) hr
  obtain ⟨entry, blocks, -, -, -, hblocks, hentries⟩ := of_compile h
  obtain ⟨hentry, hroutines⟩ := List.forall_mem_cons.1 hbracketed
  rw [Listing.entries, List.append_assoc] at hentries
  refine ⟨_, blocks, hblocks, hentries, ?_, List.forall_mem_cons.2 ⟨?_, fun r hr => ?_⟩⟩
  · have hdate : ∀ date, brackets (Listing.dateLine date) = [] := by
      intro date
      cases date <;> rfl
    have hheader : brackets Listing.header = [] := rfl
    have hstart : brackets [.blank, .label Listing.start] = [] := rfl
    simp only [brackets_append, hdate, hheader, hassignments, hstart, run?_append, run?_nil,
      hentry.run?_eq, run?_routines hroutines, Option.bind_some, if_true]
  · exact ⟨_, _, rfl⟩
  · obtain ⟨rs, rs', hrs⟩ := List.append_of_mem hr
    have hpart : r.body <:+: p.routines.flatMap fun r => .blank :: r.body := by
      refine ⟨rs.flatMap (fun r => .blank :: r.body) ++ [.blank],
        rs'.flatMap fun r => .blank :: r.body, ?_⟩
      simp [hrs]
    exact hpart.trans (List.suffix_append ..).isInfix

/-- The brackets of a program and its indentation. -/
structure WellBracketed (ctx : Context) (p : Program) : Prop where
  routines : ∀ r ∈ p.all, r.Bracketed
  /-- Every entry is indented by the number of open bodies before it. -/
  text : ∀ c before e after, p.entries = before ++ e :: after →
    Listing.lines c 0 p.entries = Listing.lines c 0 before ++ Listing.linesOf c (depth before) e ++
      Listing.lines c (depth (before ++ [e])) after
  /-- Where a body ends, one is open. -/
  closes : ∀ before after, p.entries = before ++ .endFunction :: after → 0 < depth before
  /-- Wherever a routine stands, nothing is open before it and nothing after it. -/
  levels : ∀ r ∈ p.all, r.body <:+: p.entries ∧ ∀ before after,
    p.entries = before ++ r.body ++ after → depth before = 0 ∧ depth (before ++ r.body) = 0
  /-- Nothing is open anywhere in the data in ROM and in the vectors. -/
  data : ∃ code blocks, Listing.romBlocks ctx.program p.all = .ok blocks ∧
    p.entries = code ++ (blocks.flatMap Listing.romEntries ++ Listing.vectors) ∧
    ∀ part, part <+: blocks.flatMap Listing.romEntries ++ Listing.vectors →
      depth (code ++ part) = 0

/-- **A compiled program is well bracketed.** -/
theorem wellBracketed_of_compile {ctx : Context} {date : String} {p : Program}
    (h : compile ctx date = .ok p) : p.WellBracketed ctx := by
  obtain ⟨code, blocks, hblocks, hentries, hcode, hinfix⟩ := entries_eq h
  have hrun : run? (brackets p.entries) 0 = some 0 := by
    rw [hentries, brackets_append, brackets_data, List.append_nil]
    exact hcode
  refine ⟨fun r hr => bracketed_of_mem_all h hr, fun c before e after heq => ?_,
    fun before after heq => ?_, fun r hr => ⟨?_, ?_⟩, code, blocks, hblocks, hentries,
    fun part hpart => ?_⟩
  · rw [heq]
    exact Listing.lines_append_cons c before e after
  · rw [heq, ← List.singleton_append, ← List.append_assoc] at hrun
    obtain ⟨j, hj, -⟩ := Listing.run?_of_append hrun
    refine Nat.pos_of_ne_zero fun hzero => ?_
    rw [hzero] at hj
    cases hj
  · obtain ⟨before, after, hbody⟩ := hinfix r hr
    exact ⟨before, after ++ (blocks.flatMap Listing.romEntries ++ Listing.vectors), by
      rw [hentries, ← hbody, List.append_assoc _ after]⟩
  · intro before after heq
    rw [heq] at hrun
    obtain ⟨j, hj, hdepth⟩ := Listing.run?_of_append hrun
    rw [(bracketed_of_mem_all h hr).run?_eq] at hj
    split at hj
    · rename_i hzero
      exact ⟨hzero, hdepth.trans (Option.some.inj hj).symm⟩
    · cases hj
  · obtain ⟨rest, hrest⟩ := hpart
    have hnil : brackets part = [] := by
      have hdata := brackets_data blocks
      rw [← hrest, brackets_append] at hdata
      exact (List.append_eq_nil_iff.1 hdata).1
    refine Listing.foldl_depthAfter_of_run? ?_
    rw [brackets_append, hnil, List.append_nil]
    exact hcode

/-- In `loops` the entry point has an inlined body. -/
theorem wellBracketed_of_compile_loops :
    ∃ p, compile (loops 0) "" = .ok p ∧ p.WellBracketed (loops 0) ∧
      brackets p.entries = [.routine, .inlined, .block, .endBlock, .endFunction, .endFunction,
        .routine, .endFunction] := by
  have heval : (compileWithin 1 (loops 0) "").map (·.map fun p => brackets p.entries) =
      some (.ok [.routine, .inlined, .block, .endBlock, .endFunction, .endFunction, .routine,
        .endFunction]) := by decide +kernel
  obtain ⟨p, hp, hbrackets⟩ := exists_compile_of_within heval
  exact ⟨p, hp, wellBracketed_of_compile hp, hbrackets⟩

end Program

end Cartridge
