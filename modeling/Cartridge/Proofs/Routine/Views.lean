import Cartridge.Proofs.Routine.Compiled

/-!
# Views of a stream

A view picks what is of interest from each entry of a stream. If rules, the jumps in place of
returns and the arrays of the stack have nothing of interest to it (`Stable`), then it finds the
same before and after optimizing, wrapping and tracking.
-/

namespace Cartridge

open Peephole (Rewrites optimize)

namespace StackModel

variable {α : Type} {view : Entry → Option α} {es out : List Entry}

theorem filterMap_of_annotated (hview : ∀ e, e.isArrayLet = true → view e = none) {width : Nat}
    {pieces : List (List Entry)}
    (h : List.Forall₂ (fun e piece => (placeholders width).annotate e = .ok piece) es pieces) :
    pieces.flatten.filterMap view = es.filterMap view := by
  induction h with
  | nil => rfl
  | @cons e piece es pieces he _ ih =>
    obtain ⟨sets, rfl, hsets⟩ := annotate_eq_ok he
    have hnone : sets.filterMap view = [] :=
      List.filterMap_eq_nil_iff.2 fun x hx => hview x (hsets x hx).1
    rw [List.flatten_cons, List.filterMap_append, ih, ← List.singleton_append,
      List.filterMap_append, hnone, List.append_nil, ← List.filterMap_append,
      List.singleton_append]

/-- **Tracking adds nothing to a view** that finds nothing in the arrays of the stack. -/
theorem filterMap_of_track (hview : ∀ e, e.isArrayLet = true → view e = none)
    (h : track es = .ok out) : out.filterMap view = es.filterMap view := by
  obtain ⟨pieces, rfl, hpieces⟩ := track_eq_ok h
  have hnone : (placeholders (maxDepth es)).initialization.filterMap view = [] :=
    List.filterMap_eq_nil_iff.2 fun x hx => hview x (labels_initialization hx).1
  rw [List.filterMap_append, hnone, List.nil_append, filterMap_of_annotated hview hpieces]

end StackModel

/-- A view that finds the same in a replacement as in its window, and nothing in the entries that
tracking adds. -/
structure Stable {α : Type} (view : Entry → Option α) : Prop where
  replace : ∀ {u : Universe} {rule : Rule} {w r : List Entry}, rule.Replaces u w r →
    r.filterMap view = w.filterMap view
  arrayLet : ∀ e : Entry, e.isArrayLet = true → view e = none
  jump : ∀ (stop : Label) (e : Entry), view (Routine.jumpInstead stop e) = view e

namespace Stable

variable {α : Type} {view : Entry → Option α} {es out : List Entry}

theorem of_rewrites (hview : Stable view) {u : Universe} {rules : List Rule}
    (h : Rewrites u rules es out) : out.filterMap view = es.filterMap view := by
  obtain ⟨before, after, -, hw⟩ := h
  simp only [List.filterMap_append, hview.replace hw]

theorem of_optimize (hview : Stable view) {ctx : Context} {m : Member}
    (h : optimize ctx m es = .ok out) : out.filterMap view = es.filterMap view := by
  have hsteps := Peephole.reflTransGen_of_optimize h
  clear h
  induction hsteps with
  | refl => rfl
  | tail _ hstep ih => exact (hview.of_rewrites hstep).trans ih

theorem of_jumps (hview : Stable view) (stop : Label) (es : List Entry) :
    (es.map (Routine.jumpInstead stop)).filterMap view = es.filterMap view := by
  rw [List.filterMap_map]
  exact List.filterMap_congr fun e _ => hview.jump stop e

theorem of_track (hview : Stable view) (h : StackModel.track es = .ok out) :
    out.filterMap view = es.filterMap view := StackModel.filterMap_of_track hview.arrayLet h

end Stable

end Cartridge
