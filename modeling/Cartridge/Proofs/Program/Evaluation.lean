import Cartridge.Program
import Cartridge.Proofs.Outcome

/-!
# Evaluating programs

Discovery is by well-founded recursion, which does not compute. It does with a bound on the number
of its steps (`Program.discoverWithin`), and so does all of compiling (`Program.compileWithin`).
Where the bound suffices, the result is that of `Program.compile`, and of a program one can look at
any part (`Program.exists_compile_of_within`).
-/

namespace Cartridge.Program

variable {ctx : Context} {n : Nat}

/-- Discovery in a given number of steps, if they suffice. -/
def discoverWithin (ctx : Context) :
    Nat → List Member → List Member → Option (Except Error (List Routine))
  | _, _, [] => some (.ok [])
  | 0, _, _ :: _ => none
  | n + 1, done, m :: queue =>
    if m ∈ ctx.program.callees ∧ m ∉ done then
      match Routine.compile ctx m with
      | .error err => some (.error err)
      | .ok r =>
        (discoverWithin ctx n (done ++ [m]) (queue ++ r.callees)).map fun found =>
          found.map (r :: ·)
    else discoverWithin ctx n done queue

theorem discover_of_within {done queue : List Member} {found : Except Error (List Routine)}
    (h : discoverWithin ctx n done queue = some found) : discover ctx done queue = found := by
  fun_induction discoverWithin ctx n done queue generalizing found with
  | case1 n done =>
    cases h
    rw [discover]
  | case2 => cases h
  | case3 n done m queue hm err hr =>
    cases h
    rw [discover, dif_pos hm, hr]
    rfl
  | case4 n done m queue hm r hr ih =>
    obtain ⟨rest, hrest, rfl⟩ := Option.map_eq_some_iff.1 h
    rw [discover, dif_pos hm, hr]
    change discover ctx (done ++ [m]) (queue ++ r.callees) >>= _ = _
    rw [ih hrest]
    cases rest <;> rfl
  | case5 n done m queue hm ih =>
    rw [discover, dif_neg hm]
    exact ih h

/-- Compiling with a given number of steps of discovery, if they suffice. -/
def compileWithin (n : Nat) (ctx : Context) (date : String) : Option (Except Error Program) :=
  match ctx.program.entryPoint with
  | .error err => some (.error err)
  | .ok entry =>
    match Routine.compileEntryPoint ctx entry with
    | .error err => some (.error err)
    | .ok e => (discoverWithin ctx n [entry] e.callees).map fun found => found >>= link ctx date e

theorem compile_of_within {date : String} {result : Except Error Program}
    (h : compileWithin n ctx date = some result) : compile ctx date = result := by
  unfold compileWithin at h
  unfold compile
  cases hentry : ctx.program.entryPoint with
  | error err =>
    rw [hentry] at h
    cases h
    rfl
  | ok entry =>
    simp only [hentry] at h
    cases he : Routine.compileEntryPoint ctx entry with
    | error err =>
      rw [he] at h
      cases h
      simp only [bind, Except.bind, he]
    | ok e =>
      simp only [he] at h
      obtain ⟨found, hfound, rfl⟩ := Option.map_eq_some_iff.1 h
      simp only [bind, Except.bind, he, discover_of_within hfound]

section View

variable {α : Type} {view : Program → α} {date : String}

theorem exists_compile_of_within {a : α}
    (h : (compileWithin n ctx date).map (·.map view) = some (.ok a)) :
    ∃ p, compile ctx date = .ok p ∧ view p = a := by
  obtain ⟨result, hresult, h⟩ := Option.map_eq_some_iff.1 h
  rw [compile_of_within hresult]
  exact map_eq_ok.1 h

theorem compile_eq_error_of_within {err : Error}
    (h : (compileWithin n ctx date).map (·.map view) = some (.error err)) :
    compile ctx date = .error err := by
  obtain ⟨result, hresult, h⟩ := Option.map_eq_some_iff.1 h
  rw [compile_of_within hresult]
  exact map_eq_error.1 h

/-- Without calls no steps of discovery are needed. -/
theorem exists_compile_alone
    (h : (compileWithin 0 ctx date).map (·.map fun _ => ()) = some (.ok ())) :
    ∃ p, compile ctx date = .ok p := by
  obtain ⟨p, hp, -⟩ := exists_compile_of_within h
  exact ⟨p, hp⟩

theorem compile_alone_eq_error {err : Error}
    (h : (compileWithin 0 ctx date).map (·.map fun _ => ()) = some (.error err)) :
    compile ctx date = .error err :=
  compile_eq_error_of_within h

end View

end Cartridge.Program
