import Cartridge.Context
import Cartridge.Peephole.Place

/-!
# Optimizing a stream

The mandatory rules and those optional ones that are not switched off run until nothing changes
(`normalize`). Afterwards no placeholder may be left.
-/

namespace Cartridge.Peephole

/-- Passes until one changes nothing. -/
def normalize (u : Universe) (rules : List Rule) (es : List Entry) : Except Error (List Entry) :=
  match _h : EntryList.pass u rules es with
  | .error err => .error err
  | .ok out => if _hne : out = es then .ok out else normalize u rules out
termination_by Rule.weight es
decreasing_by
  rw [EntryList.pass_eq] at _h
  exact (eq_or_weight_of_pass _h).resolve_left _hne

/-- Whether an optional rule runs. -/
def isActive (o : Options) (rule : Rule) : Bool :=
  !o.disableOptimizations && !o.disabledRules.contains rule.name

/-- The rules that run, in order. -/
def rules (o : Options) : List Rule := Rule.mandatory ++ Rule.optional.filter (isActive o)

/-- The placeholders of a stream. -/
def leftovers (es : List Entry) : List Pending := es.filterMap (·.pending?)

/-- Optimizes the stream of a method. -/
def optimize (ctx : Context) (m : Member) (es : List Entry) : Except Error (List Entry) := do
  let out ← normalize ctx.program (rules ctx.options) es
  if leftovers out = [] then pure out
  else throw (.leftoverEntries m.fullName ((leftovers out).map (·.text)))

end Cartridge.Peephole
