import Cartridge.Routine.Compile
import Cartridge.Proofs.Calls
import Cartridge.Proofs.Peephole.Confluence
import Mathlib.Data.List.Chain
import Mathlib.Logic.Relation

/-!
# Inline expansion

`Routine.Inlines` is the graph of the calls that are inlined. A method is expanded along the chains
of this graph, and a chain that comes back to one of its methods is an error.

* `Routine.inlined_eq`: how the body of a callee is found, without a look at what is declared.
* `Routine.wellFounded_expands`: the expansion ends, whatever the graph.
* `Routine.Expanded.of_transGen`: what has been expanded was expanded along every path of the graph.
* `Routine.exists_cyclic_of_error`: a rejected chain is a path of the graph that closes a cycle.
* **`Routine.compile_acyclic`**: all of this about a routine.
-/

namespace Cartridge

/-! ### Failures after selection -/

theorem noRecursion_mapM {α β : Type} {f : α → Except Error β} (hf : ∀ a, NoRecursion (f a))
    (as : List α) : NoRecursion (as.mapM f) := by
  intro name chain h
  obtain ⟨a, -, ha⟩ := exists_of_mapM_error h
  exact hf a name chain ha

namespace Rule

theorem noRecursion_romShape (u : Universe) (field : Member) (i : Instruction) :
    NoRecursion (romShape u field i) := by
  refine noRecursion_bind (u.noRecursion_findField field) fun d _ => ?_
  split
  · exact nofun
  · refine noRecursion_bind (noRecursion_sizeOf u _) fun stride _ => ?_
    split
    · exact nofun
    · exact noRecursion_ok _

theorem noRecursion_fitByte (field : Member) (i : Instruction) (what : String) (value : Nat) :
    NoRecursion (fitByte field i what value) := by
  unfold fitByte
  split
  · exact noRecursion_ok _
  · exact nofun

theorem noRecursion_replacement? (u : Universe) (rule : Rule) (w : List Entry) :
    NoRecursion (rule.replacement? u w) := by
  intro name chain h
  obtain ⟨field, type, size, s, i, ⟨rfl, rfl⟩ | ⟨rfl, rfl⟩⟩ := of_replacement?_error h
  · exact noRecursion_bind (noRecursion_romShape u field i)
      (fun shape _ => noRecursion_bind (noRecursion_fitByte field i "length" _)
        fun length _ => noRecursion_ok _) name chain h
  · exact noRecursion_bind (noRecursion_romShape u field i)
      (fun shape _ => noRecursion_bind (noRecursion_fitByte field i "stride" _)
        fun stride _ => noRecursion_ok _) name chain h

end Rule

theorem Peephole.noRecursion_optimize (ctx : Context) (m : Member) (es : List Entry) :
    NoRecursion (optimize ctx m es) := by
  refine noRecursion_bind (fun name chain h => ?_) fun out _ => ?_
  · obtain ⟨before, w, after, rule, -, -, hw⟩ := faulty_of_normalize h
    exact rule.noRecursion_replacement? ctx.program w name chain hw
  · split
    · exact noRecursion_ok _
    · exact nofun

namespace StackModel

theorem noRecursion_apply (model : StackModel) (op : MacroOp) : NoRecursion (model.apply op) := by
  refine noRecursion_bind ?_ fun popped _ => ?_
  · unfold pop
    split
    · exact nofun
    · exact noRecursion_ok _
  · split
    · exact noRecursion_ok _
    · unfold push
      split
      · exact nofun
      · exact noRecursion_ok _

theorem noRecursion_track (es : List Entry) : NoRecursion (track es) := by
  refine noRecursion_bind ?_ fun model _ =>
    noRecursion_bind (noRecursion_mapM (fun e => ?_) es) fun parts _ => noRecursion_ok _
  · unfold ofWidth
    split
    · exact noRecursion_ok _
    · exact nofun
  · unfold annotate
    split
    · exact noRecursion_ok _
    · exact noRecursion_bind (noRecursion_apply model _) fun after _ => noRecursion_ok _

end StackModel

namespace Routine

variable {ctx : Context} {chain : List Member} {m c k : Member}

theorem noRecursion_finish (body : List Entry) (lifted : List Label) :
    NoRecursion (finish ctx m body lifted) :=
  noRecursion_bind (Peephole.noRecursion_optimize ctx m body) fun optimized _ =>
    noRecursion_bind (StackModel.noRecursion_track optimized) fun _ _ => noRecursion_ok _

/-! ### The graph of inlined calls -/

/-- The body of `m` has a call that the body of `c` replaces. -/
def Inlines (ctx : Context) (m c : Member) : Prop :=
  ∃ d, ctx.program.findMethod m = .ok d ∧ ∃ i ∈ d.body, i.Inlines ctx c

theorem Inlines.mem_callees (h : Inlines ctx m c) : c ∈ ctx.program.callees := by
  obtain ⟨d, hfind, i, hi, -, hoperand, -⟩ := h
  exact Universe.mem_callees (Universe.holds_of_findMethod hfind hi) hoperand

/-- One step further into a body: `x` is the chain with the next method on it, and a method that the
last one inlines. -/
def Expands (ctx : Context) (x y : List Member × Member) : Prop :=
  x.1 = y.1 ++ [y.2] ∧ Inlines ctx y.2 x.2 ∧ x.2 ∉ x.1

/-- **The expansion ends, whatever the graph.** -/
theorem wellFounded_expands (ctx : Context) : WellFounded (Expands ctx) := by
  -- Every step puts one more of the methods that are called anywhere on the chain.
  refine Subrelation.wf (fun {x y} h => ?_)
    (measure fun x : List Member × Member =>
      unvisited ctx.program.callees (x.1 ++ [x.2])).wf
  obtain ⟨hchain, hinlines, hnew⟩ := h
  show unvisited _ (x.1 ++ [x.2]) < unvisited _ (y.1 ++ [y.2])
  rw [← hchain]
  exact unvisited_append_lt hinlines.mem_callees hnew

/-! ### Bodies of callees -/

theorem selectBody_congr {inline inline' : Member → Except Error Routine}
    (h : ∀ c, Inlines ctx m c → inline c = inline' c) :
    selectBody ctx inline m = selectBody ctx inline' m := by
  unfold selectBody
  cases hfind : ctx.program.findMethod m with
  | error e => rfl
  | ok d =>
    have hparts : d.body.mapM (selectAt ⟨ctx, m, d, inline⟩ (targets d.body)) =
        d.body.mapM (selectAt ⟨ctx, m, d, inline'⟩ (targets d.body)) := by
      refine mapM_congr fun i hi => ?_
      unfold selectAt
      by_cases hc : ∃ c, i.Inlines ctx c
      · obtain ⟨c, hc⟩ := hc
        obtain ⟨callee, hcallee, hsel⟩ := Site.select_of_inlines (s := ⟨ctx, m, d, inline⟩) hc
        obtain ⟨callee', hcallee', hsel'⟩ := Site.select_of_inlines (s := ⟨ctx, m, d, inline'⟩) hc
        cases hcallee.symm.trans hcallee'
        have hsame : Site.inlineCall ⟨ctx, m, d, inline⟩ i c callee =
            Site.inlineCall ⟨ctx, m, d, inline'⟩ i c callee :=
          Site.inlineCall_congr (h c ⟨d, hfind, i, hi, hc⟩) callee
        rw [hsel, hsel', hsame]
      · rw [Site.select_congr rfl (not_exists.1 hc)]
    simp only [bind, Except.bind, hparts]

/-- The body of a callee depends only on those of the methods that it inlines. -/
theorem inlineBody_congr {inline inline' : Member → Except Error Routine}
    (h : ∀ c, Inlines ctx m c → inline c = inline' c) :
    inlineBody ctx inline m = inlineBody ctx inline' m := by
  rw [inlineBody, inlineBody, selectBody_congr h]

/-- The body of a callee, from those that it asks for in turn. -/
theorem inlined_eq (ctx : Context) (chain : List Member) (m : Member) :
    inlined ctx chain m = inlineBody ctx (inlineInto ctx (chain ++ [m])) m := by
  rw [inlined, descend]
  refine inlineBody_congr fun c hc => ?_
  by_cases hmem : c ∈ chain ++ [m]
  · rw [dif_pos hmem, inlineInto, if_pos hmem]
  · rw [dif_neg hmem, dif_pos hc.mem_callees, inlineInto, if_neg hmem, inlined]

/-! ### Methods that are expanded -/

/-- The method has been expanded inside the bodies on the chain. -/
def Expanded (ctx : Context) (chain : List Member) (m : Member) : Prop :=
  ∃ sel, selectBody ctx (inlineInto ctx (chain ++ [m])) m = .ok sel

/-- What is inlined into an expanded method is new on its chain, and expanded. -/
theorem Expanded.of_inlines (h : Expanded ctx chain m) (hc : Inlines ctx m c) :
    c ∉ chain ++ [m] ∧ Expanded ctx (chain ++ [m]) c := by
  obtain ⟨sel, hsel⟩ := h
  obtain ⟨d, hfind, i, hi, hinlines⟩ := hc
  obtain ⟨d', hfind', hsel⟩ := bind_eq_ok.1 hsel
  cases hfind.symm.trans hfind'
  obtain ⟨parts, hparts, -⟩ := bind_eq_ok.1 hsel
  obtain ⟨part, -, hpart⟩ := exists_mem_of_mapM hparts hi
  obtain ⟨one, hone, -⟩ := bind_eq_ok.1 hpart
  obtain ⟨callee, -, hcall⟩ := Site.select_of_inlines
    (s := ⟨ctx, m, d, inlineInto ctx (chain ++ [m])⟩) hinlines
  rw [hcall, Site.inlineCall] at hone
  split at hone
  · cases hone
  · obtain ⟨body, hbody, -⟩ := bind_eq_ok.1 hone
    dsimp only at hbody
    by_cases hmem : c ∈ chain ++ [m]
    · rw [inlineInto, if_pos hmem] at hbody
      cases hbody
    · rw [inlineInto, if_neg hmem, inlined_eq] at hbody
      obtain ⟨sel, hsel, -⟩ := bind_eq_ok.1 hbody
      exact ⟨hmem, sel, hsel⟩

/-- **What has been expanded was expanded along every path.** -/
theorem Expanded.of_transGen (h : Expanded ctx chain m) (hk : Relation.TransGen (Inlines ctx) m k) :
    ∃ chain', chain ++ [m] <+: chain' ∧ k ∉ chain' ∧ Expanded ctx chain' k := by
  induction hk with
  | single hc =>
    obtain ⟨hnew, hexp⟩ := h.of_inlines hc
    exact ⟨chain ++ [m], List.prefix_refl _, hnew, hexp⟩
  | @tail b c _ hc ih =>
    obtain ⟨chain', hstart, -, hb⟩ := ih
    obtain ⟨hnew, hexp⟩ := hb.of_inlines hc
    exact ⟨chain' ++ [b], hstart.trans (List.prefix_append _ _), hnew, hexp⟩

theorem Expanded.not_transGen_self (h : Expanded ctx chain m) :
    ¬ Relation.TransGen (Inlines ctx) m m := by
  intro hcycle
  obtain ⟨chain', hstart, hnew, -⟩ := h.of_transGen hcycle
  exact hnew (hstart.subset (by simp))

/-- No cycle can be reached from what has been expanded. -/
theorem Expanded.not_transGen (h : Expanded ctx chain m)
    (hk : Relation.ReflTransGen (Inlines ctx) m k) : ¬ Relation.TransGen (Inlines ctx) k k := by
  rcases Relation.reflTransGen_iff_eq_or_transGen.1 hk with rfl | hk
  · exact h.not_transGen_self
  · obtain ⟨chain', -, -, hexp⟩ := h.of_transGen hk
    exact hexp.not_transGen_self

/-! ### Chains that are rejected -/

/-- A path of the graph that leads back to one of its methods. -/
structure Cyclic (ctx : Context) (chain : List Member) (k : Member) : Prop where
  isChain : chain.IsChain (Inlines ctx)
  closes : ∃ last, chain.getLast? = some last ∧ Inlines ctx last k
  mem : k ∈ chain

/-- An instruction that fails so asks for a body. -/
theorem exists_inlines_of_error {inline : Member → Except Error Routine} {name : String}
    {names : List String}
    (h : selectBody ctx inline m = .error (.recursiveInline name names)) :
    ∃ c, Inlines ctx m c ∧ inline c = .error (.recursiveInline name names) := by
  unfold selectBody at h
  cases hfind : ctx.program.findMethod m with
  | error e =>
    rw [hfind] at h
    cases h
    exact absurd hfind (ctx.program.noRecursion_findMethod m name names)
  | ok d =>
    simp only [bind, Except.bind, hfind] at h
    cases hparts : d.body.mapM (selectAt ⟨ctx, m, d, inline⟩ (targets d.body)) with
    | ok parts =>
      rw [hparts] at h
      cases h
    | error e =>
      rw [hparts] at h
      cases h
      obtain ⟨i, hi, hat⟩ := exists_of_mapM_error hparts
      unfold selectAt at hat
      by_cases hc : ∃ c, i.Inlines ctx c
      · obtain ⟨c, hc⟩ := hc
        refine ⟨c, ⟨d, hfind, i, hi, hc⟩, ?_⟩
        obtain ⟨callee, -, hcall⟩ := Site.select_of_inlines (s := ⟨ctx, m, d, inline⟩) hc
        rw [hcall, Site.inlineCall] at hat
        cases hbody : inline c with
        | ok body =>
          simp only [hbody] at hat
          split at hat <;> cases hat
        | error e =>
          simp only [hbody] at hat
          split at hat
          · cases hat
          · cases hat
            rfl
      · exact absurd hat (noRecursion_bind (Site.noRecursion_select (not_exists.1 hc))
          (fun _ _ => noRecursion_ok _) name names)

/-- **A rejected chain is a path of the graph that closes a cycle**, and it goes on from the chain at
which the expansion has arrived. -/
theorem exists_cyclic_of_error (x : List Member × Member)
    (hchain : (x.1 ++ [x.2]).IsChain (Inlines ctx)) {name : String} {names : List String}
    (h : selectBody ctx (inlineInto ctx (x.1 ++ [x.2])) x.2 =
      .error (.recursiveInline name names)) :
    ∃ chain k, x.1 ++ [x.2] <+: chain ∧ Cyclic ctx chain k ∧ name = k.fullName ∧
      names = chain.map (·.fullName) := by
  induction x using (wellFounded_expands ctx).induction with
  | _ x ih =>
    obtain ⟨c, hc, hbody⟩ := exists_inlines_of_error h
    by_cases hmem : c ∈ x.1 ++ [x.2]
    · rw [inlineInto, if_pos hmem] at hbody
      cases hbody
      exact ⟨x.1 ++ [x.2], c, List.prefix_refl _, ⟨hchain, ⟨x.2, by simp, hc⟩, hmem⟩, rfl, rfl⟩
    · rw [inlineInto, if_neg hmem, inlined_eq] at hbody
      have hlonger : (x.1 ++ [x.2] ++ [c]).IsChain (Inlines ctx) :=
        hchain.append (List.isChain_singleton c) (by simpa using hc)
      cases hsel : selectBody ctx (inlineInto ctx (x.1 ++ [x.2] ++ [c])) c with
      | error e =>
        rw [inlineBody, hsel] at hbody
        cases hbody
        obtain ⟨chain, k, hstart, hcyclic⟩ := ih (x.1 ++ [x.2], c) ⟨rfl, hc, hmem⟩ hlonger hsel
        exact ⟨chain, k, (List.prefix_append _ _).trans hstart, hcyclic⟩
      | ok sel =>
        rw [inlineBody, hsel] at hbody
        exact absurd hbody (noRecursion_bind (Peephole.noRecursion_optimize ctx c _)
          (fun _ _ => noRecursion_ok _) name names)

/-- **Inline expansion ends and rejects what is recursive.** A routine is compiled from the bodies
that it inlines, and these from those that they inline, along `Expands`, which is well founded. The
routine is accepted only if no cycle of inlined calls can be reached from it. If it is rejected for a
chain, then the chain starts at the routine, each method on it inlines the next one, and the last one
inlines the method that is named, which is on the chain. -/
theorem compile_acyclic (ctx : Context) (m : Member) :
    WellFounded (Expands ctx) ∧
      (∀ inline, (∀ c, Inlines ctx m c → inline c = inlineInto ctx [m] c) →
        compile ctx m = do
          let selected ← selectBody ctx inline m
          finish ctx m selected.entries selected.lifted) ∧
      (∀ chain c, c ∈ chain → inlineInto ctx chain c = recursive chain c) ∧
      (∀ chain c inline, c ∉ chain →
        (∀ c', Inlines ctx c c' → inline c' = inlineInto ctx (chain ++ [c]) c') →
        inlineInto ctx chain c = inlineBody ctx inline c) ∧
      (∀ r, compile ctx m = .ok r → ∀ k, Relation.ReflTransGen (Inlines ctx) m k →
        ¬ Relation.TransGen (Inlines ctx) k k) ∧
      ∀ name names, compile ctx m = .error (.recursiveInline name names) →
        ∃ (chain : List Member) (k last : Member), name = k.fullName ∧
          names = chain.map (·.fullName) ∧ chain.head? = some m ∧ chain.IsChain (Inlines ctx) ∧
          chain.getLast? = some last ∧ Inlines ctx last k ∧ k ∈ chain := by
  refine ⟨wellFounded_expands ctx, fun inline h => ?_, fun chain c hc => if_pos hc,
    fun chain c inline hc h => ?_, fun r h k hk => ?_, fun name names h => ?_⟩
  · rw [compile, selectBody_congr h]
  · rw [inlineInto, if_neg hc, inlined_eq, inlineBody_congr h]
  · obtain ⟨selected, hsel, -⟩ := bind_eq_ok.1 h
    have hexp : Expanded ctx [] m := ⟨selected, hsel⟩
    exact hexp.not_transGen hk
  · cases hsel : selectBody ctx (inlineInto ctx [m]) m with
    | ok selected =>
      rw [compile, hsel] at h
      exact absurd h (noRecursion_finish _ _ name names)
    | error e =>
      rw [compile, hsel] at h
      cases h
      obtain ⟨chain, k, hstart, hcyclic, hname, hnames⟩ :=
        exists_cyclic_of_error ([], m) (List.isChain_singleton m) hsel
      obtain ⟨last, hlast, hcloses⟩ := hcyclic.closes
      have hhead : chain.head? = some m := by
        obtain ⟨rest, rfl⟩ := hstart
        rfl
      exact ⟨chain, k, last, hname, hnames, hhead, hcyclic.isChain, hlast, hcloses, hcyclic.mem⟩

/-- Of two methods that inline each other, the one at which the cycle is entered is rejected for the
chain through both. A method that inlines one without calls is accepted. -/
theorem compile_acyclic_pair :
    let member : String → Member := fun name => ⟨⟨"Game"⟩, name⟩
    let inlining : String → String → MethodDecl := fun name callee =>
      { name, marker := some .alwaysInline, body := [⟨0, .call, .method (member callee)⟩] }
    let ctx : Context := ⟨⟨[{ name := "Game", types :=
      [{ name := ⟨"Game"⟩, methods :=
        [inlining "Main" "Ping", inlining "Ping" "Pong", inlining "Pong" "Ping",
         inlining "Wait" "Idle",
         { name := "Idle", marker := some .alwaysInline, body := [⟨0, .ret, .absent⟩] }] }] }]⟩, {}⟩
    compile ctx (member "Main") =
        .error (.recursiveInline "Game::Ping" ["Game::Main", "Game::Ping", "Game::Pong"]) ∧
      (∃ (chain : List Member) (k last : Member), "Game::Ping" = k.fullName ∧
        ["Game::Main", "Game::Ping", "Game::Pong"] = chain.map (·.fullName) ∧
        chain.head? = some (member "Main") ∧ chain.IsChain (Inlines ctx) ∧
        chain.getLast? = some last ∧ Inlines ctx last k ∧ k ∈ chain) ∧
      (∃ r, compile ctx (member "Wait") = .ok r) ∧
      ∀ k, Relation.ReflTransGen (Inlines ctx) (member "Wait") k →
        ¬ Relation.TransGen (Inlines ctx) k k := by
  intro member inlining ctx
  have hmain : compile ctx (member "Main") =
      .error (.recursiveInline "Game::Ping" ["Game::Main", "Game::Ping", "Game::Pong"]) := by
    decide +kernel
  have hwait : (compile ctx (member "Wait")).isOk = true := by decide +kernel
  cases hr : compile ctx (member "Wait") with
  | error e =>
    rw [hr] at hwait
    cases hwait
  | ok r =>
    obtain ⟨-, -, -, -, hok, -⟩ := compile_acyclic ctx (member "Wait")
    obtain ⟨-, -, -, -, -, herror⟩ := compile_acyclic ctx (member "Main")
    exact ⟨hmain, herror _ _ hmain, ⟨r, rfl⟩, hok r hr⟩

end Routine

end Cartridge
