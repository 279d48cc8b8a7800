import Cartridge.Proofs.Halting
import Cartridge.Proofs.Program.Closed
import Cartridge.Proofs.Values

/-!
# Discovery finds the call closure

Discovery goes through a queue that may name a method many times. As a loop, it marks a method when
it puts it into the queue, so that the queue names each method once (`Program.Worklist`).

* `Program.methods_of_discover`: routines come in the order in which their methods are first named.
* `Program.referenced_of_discover`: a routine is named before it comes.
* `Program.halts_worklist`: the loop ends after at most as many turns as there are calls in the
  program, with what discovery returns.
* **`Program.callClosure_of_compile`**: the routines of a program are the closure of its entry point
  under calls, breadth first.
-/

namespace Cartridge

/-! ### Calls of a routine -/

/-- The routines that a body refers to, reference by reference. -/
def Routine.calls (r : Routine) : List Member :=
  (r.body.flatMap (·.labels)).filterMap (·.routine?)

theorem Label.routine?_eq_some {l : Label} {m : Member} (h : l.routine? = some m) :
    l = .function m := by
  cases l with
  | function k => exact congrArg Label.function (Option.some.inj h)
  | _ => cases h

namespace Routine

theorem mem_calls {r : Routine} {m : Member} :
    m ∈ r.calls ↔ ∃ e ∈ r.body, .function m ∈ e.labels := by
  simp only [calls, List.mem_filterMap, List.mem_flatMap]
  constructor
  · rintro ⟨l, ⟨e, he, hl⟩, hm⟩
    exact ⟨e, he, Label.routine?_eq_some hm ▸ hl⟩
  · rintro ⟨e, he, hm⟩
    exact ⟨.function m, ⟨e, he, hm⟩, rfl⟩

theorem callees_eq (r : Routine) : r.callees = r.calls.eraseDups := by
  refine filterMap_eraseDups (fun l l' m hl hl' => ?_) _
  rw [Label.routine?_eq_some hl, Label.routine?_eq_some hl']

theorem exists_of_mem_callees {r : Routine} {m : Member} (h : m ∈ r.callees) :
    ∃ e ∈ r.body, .function m ∈ e.labels := by
  rwa [callees_eq, List.mem_eraseDups, mem_calls] at h

theorem eraseDups_callees (r : Routine) : r.callees.eraseDups = r.calls.eraseDups := by
  rw [callees_eq, eraseDups_of_nodup (nodup_eraseDups _)]

/-- A routine calls only methods that some instruction of the program calls. -/
theorem callees_subset_of_declared {ctx : Context} {r : Routine}
    (h : ∀ e ∈ r.body, ∀ l ∈ e.labels, l.Declared ctx.program) :
    r.callees ⊆ ctx.program.callees := by
  intro m hm
  obtain ⟨e, he, hl⟩ := exists_of_mem_callees hm
  exact h e he _ hl

theorem method_of_compileEntryPoint {ctx : Context} {m : Member} {r : Routine}
    (h : compileEntryPoint ctx m = .ok r) : r.method = m := by
  obtain ⟨sel, -, h⟩ := bind_eq_ok.1 h
  obtain ⟨inits, -, h⟩ := bind_eq_ok.1 h
  obtain ⟨optimized, -, h⟩ := bind_eq_ok.1 h
  obtain ⟨tracked, -, h⟩ := bind_eq_ok.1 h
  cases pure_eq_ok.1 h
  rfl

end Routine

namespace Program

/-! ### What is left of a queue -/

/-- The methods of a queue that are not done, each once. -/
def remaining (done queue : List Member) : List Member := (queue.removeAll done).eraseDups

variable {done queue : List Member} {m : Member}

@[simp] theorem remaining_nil (done : List Member) : remaining done [] = [] := rfl

theorem mem_remaining : m ∈ remaining done queue ↔ m ∈ queue ∧ m ∉ done := by
  simp [remaining, List.removeAll]

theorem remaining_append (done queue queue' : List Member) :
    remaining done (queue ++ queue') =
      remaining done queue ++ remaining (done ++ queue) queue' := by
  have hsplit : (queue ++ queue').removeAll done =
      queue.removeAll done ++ queue'.removeAll done := List.filter_append ..
  have htwice : (queue'.removeAll done).removeAll (queue.removeAll done) =
      queue'.removeAll (done ++ queue) := by
    unfold List.removeAll
    rw [List.filter_filter]
    refine List.filter_congr fun k _ => ?_
    by_cases hd : k ∈ done <;> simp [hd]
  rw [remaining, hsplit, List.eraseDups_append, htwice]
  rfl

theorem remaining_cons_of_mem (h : m ∈ done) :
    remaining done (m :: queue) = remaining done queue := by
  have hdrop : (m :: queue).removeAll done = queue.removeAll done :=
    List.filter_cons_of_neg (by simp [h])
  rw [remaining, hdrop, remaining]

theorem remaining_singleton (h : m ∉ done) : remaining done [m] = [m] := by
  have hkeep : [m].removeAll done = [m] := List.filter_cons_of_pos (by simp [h])
  rw [remaining, hkeep]
  rfl

theorem remaining_cons_of_not_mem (h : m ∉ done) :
    remaining done (m :: queue) = m :: remaining (done ++ [m]) queue := by
  rw [← List.singleton_append, remaining_append, remaining_singleton h, List.singleton_append]

/-! ### Order of discovery -/

variable {ctx : Context} {rs : List Routine}

theorem callees_subset_of_compile {r : Routine} (h : Routine.compile ctx m = .ok r) :
    r.callees ⊆ ctx.program.callees :=
  Routine.callees_subset_of_declared (Routine.declared_of_compile h)

/-- The queue after a turn names called methods only, as before it. -/
theorem subset_of_compile {r : Routine} (hqueue : m :: queue ⊆ ctx.program.callees)
    (h : Routine.compile ctx m = .ok r) : queue ++ r.callees ⊆ ctx.program.callees :=
  List.append_subset.2 ⟨(List.cons_subset.1 hqueue).2, callees_subset_of_compile h⟩

/-- A method of the queue is skipped only if it is done. -/
theorem mem_done_of_skipped (hqueue : m :: queue ⊆ ctx.program.callees)
    (h : ¬(m ∈ ctx.program.callees ∧ m ∉ done)) :
    m ∈ done ∧ queue ⊆ ctx.program.callees := by
  obtain ⟨hcalled, hsubset⟩ := List.cons_subset.1 hqueue
  refine ⟨?_, hsubset⟩
  by_contra hnot
  exact h ⟨hcalled, hnot⟩

/-- Routines come in the order in which their methods are first named: in the queue, or after it in
the calls of one routine after the other. -/
theorem methods_of_discover (hqueue : queue ⊆ ctx.program.callees)
    (h : discover ctx done queue = .ok rs) :
    rs.map (·.method) = remaining done (queue ++ rs.flatMap (·.callees)) := by
  fun_induction discover ctx done queue generalizing rs with
  | case1 done =>
    cases h
    rfl
  | case2 done m queue hm ih =>
    obtain ⟨r, hr, h⟩ := bind_eq_ok.1 h
    obtain ⟨rest, hrest, h⟩ := bind_eq_ok.1 h
    cases pure_eq_ok.1 h
    rw [List.cons_append, remaining_cons_of_not_mem hm.2, List.flatMap_cons, ← List.append_assoc,
      ← ih r (subset_of_compile hqueue hr) hrest, List.map_cons, Routine.method_of_compile hr]
  | case3 done m queue hm ih =>
    obtain ⟨hdone, hsubset⟩ := mem_done_of_skipped hqueue hm
    rw [List.cons_append, remaining_cons_of_mem hdone, ih hsubset h]

/-- A routine is in the queue, or called from a routine that comes before it. -/
theorem referenced_of_discover (h : discover ctx done queue = .ok rs) {before after : List Routine}
    {r : Routine} (hrs : rs = before ++ r :: after) :
    r.method ∈ queue ∨ ∃ r' ∈ before, r.method ∈ r'.callees := by
  fun_induction discover ctx done queue generalizing rs before with
  | case1 done =>
    cases h
    exact absurd hrs (by simp)
  | case2 done m queue hm ih =>
    obtain ⟨first, hfirst, h⟩ := bind_eq_ok.1 h
    obtain ⟨rest, hrest, h⟩ := bind_eq_ok.1 h
    cases pure_eq_ok.1 h
    cases before with
    | nil =>
      obtain ⟨rfl, -⟩ := List.cons.inj hrs
      rw [Routine.method_of_compile hfirst]
      exact .inl (List.mem_cons_self ..)
    | cons first' before =>
      obtain ⟨rfl, hrest'⟩ := List.cons.inj hrs
      rcases ih first hrest hrest' with hq | ⟨r', hr', hcall⟩
      · rcases List.mem_append.1 hq with hq | hcall
        · exact .inl (List.mem_cons_of_mem _ hq)
        · exact .inr ⟨first, List.mem_cons_self .., hcall⟩
      · exact .inr ⟨r', List.mem_cons_of_mem _ hr', hcall⟩
  | case3 done m queue hm ih => exact (ih h hrs).imp_left (List.mem_cons_of_mem _)

/-! ### Discovery as a loop -/

/-- The state of the loop that discovers routines. -/
structure Worklist where
  /-- The methods that have been put into the queue, and the entry point. -/
  seen : List Member
  queue : List Member
  /-- The routines that are compiled. -/
  routines : List Routine

namespace Worklist

/-- Puts a method into the queue, unless it has been there. -/
def enqueue (w : Worklist) (m : Member) : Worklist :=
  if m ∈ w.seen then w else { w with seen := w.seen ++ [m], queue := w.queue ++ [m] }

/-- Puts what a routine calls into the queue. -/
def enqueueCallees (w : Worklist) (r : Routine) : Worklist := r.callees.foldl enqueue w

/-- The state before the first turn, after the entry point is compiled. -/
def start (entryPoint : Routine) : Worklist :=
  enqueueCallees ⟨[entryPoint.method], [], []⟩ entryPoint

/-- One turn of the loop: the first method of the queue is compiled. -/
inductive Step (ctx : Context) : Worklist → Worklist → Prop
  | intro {seen queue : List Member} {rs : List Routine} {m : Member} {r : Routine}
      (h : Routine.compile ctx m = .ok r) :
      Step ctx ⟨seen, m :: queue, rs⟩ (enqueueCallees ⟨seen, queue, rs ++ [r]⟩ r)

/-- The loop stops with a result: the queue is empty, or its first method has no routine. -/
inductive Stops (ctx : Context) : Except Error (List Routine) → Worklist → Prop
  | finished (seen : List Member) (rs : List Routine) : Stops ctx (.ok rs) ⟨seen, [], rs⟩
  | failed {seen queue : List Member} {rs : List Routine} {m : Member} {err : Error}
      (h : Routine.compile ctx m = .error err) : Stops ctx (.error err) ⟨seen, m :: queue, rs⟩

/-- What is left to do: methods in the queue, and methods that can still come into it. -/
def measure (ctx : Context) (w : Worklist) : Nat :=
  unvisited ctx.program.callees w.seen + w.queue.length

theorem measure_foldl_enqueue {ms : List Member} (h : ms ⊆ ctx.program.callees) (w : Worklist) :
    (ms.foldl enqueue w).measure ctx ≤ w.measure ctx := by
  induction ms generalizing w with
  | nil => exact Nat.le_refl _
  | cons m ms ih =>
    obtain ⟨hm, hms⟩ := List.cons_subset.1 h
    refine Nat.le_trans (ih hms (w.enqueue m)) ?_
    unfold enqueue
    split
    · exact Nat.le_refl _
    · next hseen =>
      have hlt := unvisited_append_lt hm hseen
      simp only [measure, List.length_append, List.length_singleton]
      omega

theorem measure_of_step {w w' : Worklist} (h : Step ctx w w') : w'.measure ctx < w.measure ctx := by
  cases h with
  | @intro seen queue rs m r hr =>
    refine Nat.lt_of_le_of_lt (measure_foldl_enqueue (callees_subset_of_compile hr) _) ?_
    simp only [measure, List.length_cons]
    omega

theorem measure_start {e : Routine} (h : e.callees ⊆ ctx.program.callees) :
    (start e).measure ctx ≤ ctx.program.callees.length :=
  Nat.le_trans (measure_foldl_enqueue h _) List.countP_le_length

/-- The state of the loop when discovery has a queue that may repeat methods. -/
def ofQueue (done queue : List Member) (rs : List Routine) : Worklist :=
  ⟨done ++ remaining done queue, remaining done queue, rs⟩

theorem enqueue_ofQueue (done queue : List Member) (rs : List Routine) (m : Member) :
    (ofQueue done queue rs).enqueue m = ofQueue done (queue ++ [m]) rs := by
  have hseen : m ∈ done ++ remaining done queue ↔ m ∈ done ++ queue := by
    simp only [List.mem_append, mem_remaining]
    tauto
  rw [ofQueue, ofQueue, remaining_append]
  unfold enqueue
  split
  · next hm =>
    rw [remaining_cons_of_mem (hseen.1 hm), remaining_nil, List.append_nil]
  · next hm =>
    rw [remaining_singleton (hm ∘ hseen.2), List.append_assoc]

theorem foldl_enqueue_ofQueue (done queue ms : List Member) (rs : List Routine) :
    ms.foldl enqueue (ofQueue done queue rs) = ofQueue done (queue ++ ms) rs := by
  induction ms generalizing queue with
  | nil => rw [List.append_nil, List.foldl_nil]
  | cons m ms ih => rw [List.foldl_cons, enqueue_ofQueue, ih, List.append_assoc,
      List.singleton_append]

theorem start_eq (e : Routine) : start e = ofQueue [e.method] e.callees [] :=
  foldl_enqueue_ofQueue [e.method] [] e.callees []

theorem ofQueue_cons_of_not_mem (h : m ∉ done) (queue : List Member) (rs : List Routine) :
    ofQueue done (m :: queue) rs =
      ⟨(ofQueue (done ++ [m]) queue rs).seen, m :: (ofQueue (done ++ [m]) queue rs).queue, rs⟩ := by
  simp only [ofQueue, remaining_cons_of_not_mem h, List.append_assoc, List.singleton_append]

/-- The loop comes to what discovery returns. -/
theorem exists_stops (done : List Member) (hqueue : queue ⊆ ctx.program.callees)
    (rs : List Routine) :
    ∃ w, Relation.ReflTransGen (Step ctx) (ofQueue done queue rs) w ∧
      Stops ctx ((discover ctx done queue).map (rs ++ ·)) w := by
  fun_induction discover ctx done queue generalizing rs with
  | case1 done =>
    refine ⟨_, .refl, ?_⟩
    simp only [Except.map, List.append_nil]
    exact .finished ..
  | case2 done m queue hm ih =>
    rw [ofQueue_cons_of_not_mem hm.2]
    cases hr : Routine.compile ctx m with
    | error err => exact ⟨_, .refl, .failed hr⟩
    | ok r =>
      obtain ⟨w, hsteps, hstops⟩ := ih r (subset_of_compile hqueue hr) (rs ++ [r])
      rw [← foldl_enqueue_ofQueue] at hsteps
      refine ⟨w, .head (.intro hr) hsteps, ?_⟩
      -- The loop appends a routine to its results, where discovery puts it before the rest.
      have hresult : ((discover ctx (done ++ [m]) (queue ++ r.callees) >>= fun rest =>
          pure (r :: rest)).map (rs ++ ·)) =
          (discover ctx (done ++ [m]) (queue ++ r.callees)).map (rs ++ [r] ++ ·) := by
        cases discover ctx (done ++ [m]) (queue ++ r.callees) with
        | error err => rfl
        | ok rest => simp [Except.map, bind, Except.bind, pure, Except.pure]
      exact hresult ▸ hstops
  | case3 done m queue hm ih =>
    obtain ⟨hdone, hsubset⟩ := mem_done_of_skipped hqueue hm
    have hsame : ofQueue done (m :: queue) rs = ofQueue done queue rs := by
      rw [ofQueue, remaining_cons_of_mem hdone, ofQueue]
    rw [hsame]
    exact ih hsubset rs

end Worklist

/-- **The loop ends**, with what discovery returns. -/
theorem halts_worklist {entry : Member} {e : Routine}
    (h : Routine.compileEntryPoint ctx entry = .ok e) :
    Halts (Worklist.Step ctx) (Worklist.Stops ctx (discover ctx [e.method] e.callees))
      (Worklist.start e) ctx.program.callees.length := by
  have hsubset := Routine.callees_subset_of_declared (Routine.declared_of_compileEntryPoint h)
  obtain ⟨w, hsteps, hstops⟩ := Worklist.exists_stops [e.method] hsubset []
  rw [← Worklist.start_eq] at hsteps
  have hresult : (discover ctx [e.method] e.callees).map (([] : List Routine) ++ ·) =
      discover ctx [e.method] e.callees := by
    cases discover ctx [e.method] e.callees <;> rfl
  rw [hresult] at hstops
  exact (Halts.of_falling (Worklist.measure ctx) (fun _ _ => Worklist.measure_of_step) hsteps
    hstops).mono (Worklist.measure_start hsubset)

/-! ### The call closure -/

/-- The routines of a program are what can be reached by calls from its entry point, in the order of
a breadth-first search. -/
structure CallClosure (p : Program) : Prop where
  nodup : (p.all.map (·.method)).Nodup
  closed : ∀ r ∈ p.all, ∀ e ∈ r.body, ∀ m, .function m ∈ e.labels → ∃ r' ∈ p.all, r'.method = m
  /-- A routine is referred to by the entry point or by a routine listed before it. -/
  referenced : ∀ before r after, p.routines = before ++ r :: after →
    ∃ r' ∈ p.entryPoint :: before, ∃ e ∈ r'.body, .function r.method ∈ e.labels
  /-- Methods come in the order of the first reference to them, routine by routine and within a
  routine in the order of its body. -/
  order : p.all.map (·.method) =
    (p.entryPoint.method :: p.all.flatMap (·.calls)).eraseDups

variable {date : String} {p : Program}

theorem discover_of_compile (h : compile ctx date = .ok p) :
    ∃ entry, ctx.program.entryPoint = .ok entry ∧
      Routine.compileEntryPoint ctx entry = .ok p.entryPoint ∧
      discover ctx [p.entryPoint.method] p.entryPoint.callees = .ok p.routines := by
  obtain ⟨entry, hentry, h⟩ := bind_eq_ok.1 h
  obtain ⟨e, he, h⟩ := bind_eq_ok.1 h
  obtain ⟨rs, hrs, h⟩ := bind_eq_ok.1 h
  obtain ⟨res, -, h⟩ := bind_eq_ok.1 h
  obtain ⟨blocks, -, h⟩ := bind_eq_ok.1 h
  cases pure_eq_ok.1 h
  rw [← Routine.method_of_compileEntryPoint he] at hrs
  exact ⟨entry, hentry, he, hrs⟩

theorem order_of_compile (h : compile ctx date = .ok p) :
    p.all.map (·.method) = (p.entryPoint.method :: p.all.flatMap (·.calls)).eraseDups := by
  obtain ⟨entry, -, he, hrs⟩ := discover_of_compile h
  have hsubset := Routine.callees_subset_of_declared (Routine.declared_of_compileEntryPoint he)
  have hcalls : (p.all.flatMap (·.callees)).eraseDups = (p.all.flatMap (·.calls)).eraseDups :=
    eraseDups_flatMap_congr Routine.eraseDups_callees _
  calc p.all.map (·.method)
      = [p.entryPoint.method] ++ remaining [p.entryPoint.method] (p.all.flatMap (·.callees)) := by
        rw [all, List.map_cons, methods_of_discover hsubset hrs, List.flatMap_cons]
        rfl
    _ = ([p.entryPoint.method] ++ p.all.flatMap (·.callees)).eraseDups := by
        rw [List.eraseDups_append, remaining]
        rfl
    _ = (p.entryPoint.method :: p.all.flatMap (·.calls)).eraseDups :=
        eraseDups_append_congr rfl hcalls

/-- **Discovery finds the call closure.** Its loop ends for every program whose entry point has a
routine; and the routines of a compiled program are the result of discovery, which is closed under
calls and has nothing but what is called, each method once and breadth first. -/
theorem callClosure_of_compile (ctx : Context) (date : String) :
    (∀ e, (ctx.program.entryPoint >>= Routine.compileEntryPoint ctx) = .ok e →
      Halts (Worklist.Step ctx) (Worklist.Stops ctx (discover ctx [e.method] e.callees))
        (Worklist.start e) ctx.program.callees.length) ∧
    ∀ p, compile ctx date = .ok p →
      discover ctx [p.entryPoint.method] p.entryPoint.callees = .ok p.routines ∧
        p.CallClosure := by
  refine ⟨fun e h => ?_, fun p h => ?_⟩
  · obtain ⟨entry, -, he⟩ := bind_eq_ok.1 h
    exact halts_worklist he
  · obtain ⟨entry, -, -, hrs⟩ := discover_of_compile h
    have horder := order_of_compile h
    refine ⟨hrs, ⟨horder ▸ nodup_eraseDups _, fun r hr e he m hm => ?_, ?_, horder⟩⟩
    · have hmem : m ∈ p.all.map (·.method) := by
        rw [horder, List.mem_eraseDups]
        exact List.mem_cons_of_mem _
          (List.mem_flatMap.2 ⟨r, hr, Routine.mem_calls.2 ⟨e, he, hm⟩⟩)
      exact List.mem_map.1 hmem
    · intro before r after hsplit
      rcases referenced_of_discover hrs hsplit with hcall | ⟨r', hr', hcall⟩
      · exact ⟨p.entryPoint, List.mem_cons_self .., Routine.exists_of_mem_callees hcall⟩
      · exact ⟨r', List.mem_cons_of_mem _ hr', Routine.exists_of_mem_callees hcall⟩

/-- Three routines that call one another, one of them the entry point, which is called too. -/
def ring : Context :=
  let game : TypeName := ⟨"Game"⟩
  let calling (name : String) (callees : List String) : MethodDecl :=
    { name
      body := (callees.zipIdx.map fun c => ⟨.ofNat c.2, .call, .method ⟨game, c.1⟩⟩) ++
        [⟨.ofNat callees.length, .ret, .absent⟩] }
  let types : List TypeDecl :=
    [{ name := .byte, primitiveSize := some 1 }, { name := .boolean, primitiveSize := some 1 },
     { name := .nothing, primitiveSize := some 0 },
     { name := game
       methods := [calling "Main" ["Draw", "Tick", "Draw"], calling "Tick" ["Draw"],
         calling "Draw" ["Tick", "Main", "Draw"]] }]
  ⟨⟨[{ name := "Game", types, entryPoint := some ⟨game, "Main"⟩ }]⟩, {}⟩

/-- Two methods are compiled after the entry point, and four more are found to be done. -/
theorem ring_compiles : ∃ p, compile ring "" = .ok p ∧
    p.all.map (·.method) = [⟨⟨"Game"⟩, "Main"⟩, ⟨⟨"Game"⟩, "Draw"⟩, ⟨⟨"Game"⟩, "Tick"⟩] := by
  have heval : (compileWithin 6 ring "").map (·.map fun p => p.all.map (·.method)) =
      some (.ok [⟨⟨"Game"⟩, "Main"⟩, ⟨⟨"Game"⟩, "Draw"⟩, ⟨⟨"Game"⟩, "Tick"⟩]) := by decide +kernel
  exact exists_compile_of_within heval

theorem callClosure_of_compile_ring :
    ∃ p, compile ring "" = .ok p ∧
      p.all.map (·.method) = [⟨⟨"Game"⟩, "Main"⟩, ⟨⟨"Game"⟩, "Draw"⟩, ⟨⟨"Game"⟩, "Tick"⟩] ∧
      p.CallClosure ∧
      Halts (Worklist.Step ring) (Worklist.Stops ring (.ok p.routines))
        (Worklist.start p.entryPoint) 7 := by
  obtain ⟨p, hp, hmethods⟩ := ring_compiles
  obtain ⟨hhalts, hclosure⟩ := callClosure_of_compile ring ""
  obtain ⟨hdiscover, hcallClosure⟩ := hclosure p hp
  obtain ⟨entry, hentry, he, -⟩ := discover_of_compile hp
  have hloop := hhalts p.entryPoint (bind_eq_ok.2 ⟨entry, hentry, he⟩)
  rw [hdiscover] at hloop
  exact ⟨p, hp, hmethods, hcallClosure, hloop⟩

end Program

end Cartridge
