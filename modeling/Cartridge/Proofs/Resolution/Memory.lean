import Cartridge.Proofs.Resolution.Distinct

/-!
# Memory holds exactly what is needed

Resolution goes through declarations: types with their fields, then the methods of routines and of
inlined bodies with their slots. It keeps those whose labels the routines refer to.

* `Resolution.placeAll_wanted`: all of it is one list of labels with their types (`wanted`), placed
  after scratch memory.
* `Resolution.of_placeAll`: placing distinct labels gives one placement and one assignment for each.
* **`Resolution.exactMemory_of_ofRoutines`**: what is placed, once and with which size, said by
  declarations and references alone.
* `Resolution.lifted_global_is_placed`: a static field that is only lifted gets memory too.
-/

namespace Cartridge

/-- The label stands for the memory of a value of the type: of a static field in RAM, or of a
parameter, local or result. -/
def Label.Stores (u : Universe) : Label → TypeName → Prop
  | .global f, t => ∃ c ∈ u.types, ∃ d ∈ c.fields,
      c.member d.name = f ∧ d.isRamStatic = true ∧ d.type = t
  | .argument m k, t => ∃ d, u.findMethod m = .ok d ∧
      ∃ p, d.parameters[k.toNat]? = some p ∧ p.type = t
  | .localSlot m k, t => ∃ d, u.findMethod m = .ok d ∧ d.locals[k.toNat]? = some t
  | .returnValue m, t => ∃ d, u.findMethod m = .ok d ∧ d.returnType = t
  | _, _ => False

/-- Types and fields are told apart by their names, and the slots of a method by their indices. -/
structure Universe.Unambiguous (u : Universe) : Prop where
  types : (u.types.map (·.name)).Nodup
  fields : ∀ t ∈ u.types, (t.fields.map (·.name)).Nodup
  parameters : ∀ t ∈ u.types, ∀ m ∈ t.methods, m.parameters.length ≤ UInt16.size
  locals : ∀ t ∈ u.types, ∀ m ∈ t.methods, m.locals.length ≤ UInt16.size

/-- The body refers to the label, or the label is lifted. -/
def Routine.Mentions (r : Routine) (l : Label) : Prop := (∃ e ∈ r.body, l ∈ e.labels) ∨ l ∈ r.lifted

/-- The label and the address that an entry assigns to it. -/
def Entry.assignedAddress? : Entry → Option (Label × Nat)
  | .directive (.labelAssign l (.constant (.address address))) => some (l, address.toNat)
  | _ => none

theorem Label.Stores.unique {u : Universe} (hu : u.Unambiguous) {l : Label} {t t' : TypeName}
    (h : l.Stores u t) (h' : l.Stores u t') : t = t' := by
  cases l with
  | global f =>
    obtain ⟨d, hd, c, hc, rfl, -, rfl⟩ := h
    obtain ⟨d', hd', c', hc', heq, -, rfl⟩ := h'
    obtain ⟨hname, hfield⟩ := Member.mk.inj heq
    cases List.inj_on_of_nodup_map hu.types hd' hd hname
    cases List.inj_on_of_nodup_map (hu.fields d hd) hc' hc hfield
    rfl
  | argument m k =>
    obtain ⟨d, hd, p, hp, rfl⟩ := h
    obtain ⟨d', hd', p', hp', rfl⟩ := h'
    cases hd.symm.trans hd'
    cases hp.symm.trans hp'
    rfl
  | localSlot m k =>
    obtain ⟨d, hd, ht⟩ := h
    obtain ⟨d', hd', ht'⟩ := h'
    cases hd.symm.trans hd'
    exact Option.some.inj (ht.symm.trans ht')
  | returnValue m =>
    obtain ⟨d, hd, rfl⟩ := h
    obtain ⟨d', hd', rfl⟩ := h'
    cases hd.symm.trans hd'
    rfl
  | _ => exact h.elim

namespace Resolution

variable {u : Universe} {rs : List Routine} {refs : List Label}

theorem mem_referenced {l : Label} : l ∈ referenced rs ↔ ∃ r ∈ rs, r.Mentions l := by
  simp only [referenced, Routine.labels, Routine.Mentions, List.mem_eraseDups, List.mem_flatMap,
    List.mem_append]

/-! ### The labels that are placed -/

/-- The slots of a method that are referred to. -/
def wantedSlots (u : Universe) (refs : List Label) (m : Member) : List (Label × TypeName) :=
  match u.findMethod m with
  | .ok d => (slots m d).filter fun slot => refs.contains slot.1
  | .error _ => []

theorem map_wantedSlots (m : Member) : (wantedSlots u refs m).map (·.1) = slotLabels u refs m := by
  unfold wantedSlots slotLabels
  cases u.findMethod m <;> rfl

/-- What is placed after scratch memory. -/
def wanted (u : Universe) (rs : List Routine) : List (Label × TypeName) :=
  globals u (referenced rs) ++
    (owners rs (referenced rs)).flatMap (wantedSlots u (referenced rs))

theorem map_wanted : (wanted u rs).map (·.1) = (globals u (referenced rs)).map (·.1) ++
    (owners rs (referenced rs)).flatMap (slotLabels u (referenced rs)) := by
  rw [wanted, List.map_append, List.map_flatMap]
  simp only [map_wantedSlots]

theorem mem_map_globals {f : Member} :
    .global f ∈ (globals u refs).map (·.1) ↔ ∃ t ∈ u.types, ∃ d ∈ t.fields,
      t.member d.name = f ∧ d.isRamStatic = true ∧ (d.aliases ≠ [] ∨ .global f ∈ refs) := by
  simp only [globals, statics, List.mem_map, List.mem_flatMap, List.mem_mergeSort, List.mem_filter,
    needsMemory, Bool.and_eq_true, Bool.or_eq_true, Bool.not_eq_true', List.isEmpty_eq_false_iff,
    List.contains_iff_mem]
  constructor
  · rintro ⟨_, ⟨t, ht, d, ⟨hd, hram, hneed⟩, rfl⟩, heq⟩
    cases Label.global.inj heq
    exact ⟨t, ht, d, hd, rfl, hram, hneed⟩
  · rintro ⟨t, ht, d, hd, rfl, hram, hneed⟩
    exact ⟨_, ⟨t, ht, d, ⟨hd, hram, hneed⟩, rfl⟩, rfl⟩

theorem global_of_mem_globals {l : Label} (h : l ∈ (globals u refs).map (·.1)) :
    ∃ f, l = .global f := by
  simp only [globals, List.mem_map, List.mem_flatMap] at h
  obtain ⟨_, ⟨t, -, d, -, rfl⟩, rfl⟩ := h
  exact ⟨_, rfl⟩

theorem owner_of_mem_slots {l : Label} (h : l ∈ (owners rs refs).flatMap (slotLabels u refs)) :
    ∃ m, l.owner? = some m := by
  obtain ⟨m, -, hl⟩ := List.mem_flatMap.1 h
  exact ⟨m, owner_of_mem_slotLabels hl⟩

/-- **Static fields** that are placed. -/
theorem global_mem_wanted {f : Member} :
    .global f ∈ (wanted u rs).map (·.1) ↔ ∃ t ∈ u.types, ∃ d ∈ t.fields,
      t.member d.name = f ∧ d.isRamStatic = true ∧
        (d.aliases ≠ [] ∨ ∃ r ∈ rs, r.Mentions (.global f)) := by
  rw [map_wanted, List.mem_append, mem_map_globals, mem_referenced]
  refine or_iff_left fun h => ?_
  obtain ⟨m, hm⟩ := owner_of_mem_slots h
  cases hm

section Slots

variable {m : Member} {d : MethodDecl}

/-- An index below the bound of 16 bits is not cut off. -/
theorem getElem?_of_mem_zipIdx {α : Type} {xs : List α} {x : α} {i : Nat}
    (hlen : xs.length ≤ UInt16.size) (h : (x, i) ∈ xs.zipIdx) :
    xs[(UInt16.ofNat i).toNat]? = some x := by
  have hget := List.mem_zipIdx_iff_getElem?.1 h
  have hlt : i < xs.length := (List.getElem?_eq_some_iff.1 hget).1
  rwa [UInt16.toNat_ofNat_of_lt' (Nat.lt_of_lt_of_le hlt hlen)]

theorem stores_of_mem_slots (hu : u.Unambiguous) (hd : u.findMethod m = .ok d) {l : Label}
    {t : TypeName} (h : (l, t) ∈ slots m d) : l.Stores u t := by
  obtain ⟨c, hc, hm⟩ := Universe.of_findMethod hd
  simp only [slots, List.mem_append, List.mem_map, List.mem_singleton, Prod.mk.injEq] at h
  rcases h with (⟨p, hp, rfl, rfl⟩ | ⟨p, hp, rfl, rfl⟩) | ⟨rfl, rfl⟩
  · exact ⟨d, hd, p.1, getElem?_of_mem_zipIdx (hu.parameters c hc d hm) hp, rfl⟩
  · exact ⟨d, hd, getElem?_of_mem_zipIdx (hu.locals c hc d hm) hp⟩
  · exact ⟨d, hd, rfl⟩

theorem mem_slots_of_stores {l : Label} {t : TypeName} (hl : l.owner? = some m)
    (h : l.Stores u t) : ∃ d, u.findMethod m = .ok d ∧ l ∈ (slots m d).map (·.1) := by
  cases l with
  | argument m' k =>
    cases Option.some.inj hl
    obtain ⟨d, hd, p, hp, -⟩ := h
    exact ⟨d, hd, argument_mem_slots m (List.getElem?_eq_some_iff.1 hp).1⟩
  | localSlot m' k =>
    cases Option.some.inj hl
    obtain ⟨d, hd, ht⟩ := h
    exact ⟨d, hd, localSlot_mem_slots m (List.getElem?_eq_some_iff.1 ht).1⟩
  | returnValue m' =>
    cases Option.some.inj hl
    obtain ⟨d, hd, -⟩ := h
    exact ⟨d, hd, returnValue_mem_slots m d⟩
  | _ => cases hl

theorem of_mem_wantedSlots {l : Label} {t : TypeName} (h : (l, t) ∈ wantedSlots u refs m) :
    ∃ d, u.findMethod m = .ok d ∧ (l, t) ∈ slots m d ∧ l ∈ refs := by
  unfold wantedSlots at h
  split at h
  · next d hd =>
    obtain ⟨hslot, href⟩ := List.mem_filter.1 h
    exact ⟨d, hd, hslot, List.contains_iff_mem.1 href⟩
  · cases h

end Slots

/-- What is placed has the type of its declaration. -/
theorem stores_of_mem_wanted (hu : u.Unambiguous) {l : Label} {t : TypeName}
    (h : (l, t) ∈ wanted u rs) : l.Stores u t := by
  rcases List.mem_append.1 h with h | h
  · simp only [globals, statics, List.mem_flatMap, List.mem_map, List.mem_mergeSort,
      List.mem_filter, Prod.mk.injEq] at h
    obtain ⟨c, hc, d, ⟨hd, hneed⟩, rfl, rfl⟩ := h
    exact ⟨c, hc, d, hd, rfl, (Bool.and_eq_true_iff.1 hneed).1, rfl⟩
  · obtain ⟨m, -, h⟩ := List.mem_flatMap.1 h
    obtain ⟨d, hd, hslot, -⟩ := of_mem_wantedSlots h
    exact stores_of_mem_slots hu hd hslot

/-- **Parameters, locals and results** that are placed. -/
theorem slot_mem_wanted (hu : u.Unambiguous) {l : Label} {m : Member} (hl : l.owner? = some m) :
    l ∈ (wanted u rs).map (·.1) ↔ (∃ r ∈ rs, r.Mentions l) ∧ ∃ t, l.Stores u t := by
  rw [← mem_referenced]
  constructor
  · intro h
    obtain ⟨⟨l, t⟩, hmem, rfl⟩ := List.mem_map.1 h
    refine ⟨?_, t, stores_of_mem_wanted hu hmem⟩
    rcases List.mem_append.1 hmem with hglobal | hslot
    · obtain ⟨f, rfl⟩ := global_of_mem_globals (List.mem_map_of_mem (f := Prod.fst) hglobal)
      cases hl
    · obtain ⟨m', -, hslot⟩ := List.mem_flatMap.1 hslot
      obtain ⟨d, -, -, href⟩ := of_mem_wantedSlots hslot
      exact href
  · rintro ⟨href, t, hstores⟩
    obtain ⟨d, hd, hslot⟩ := mem_slots_of_stores hl hstores
    rw [map_wanted]
    exact List.mem_append_right _ (mem_owners_slotLabels href hl hd hslot)

theorem nodup_wanted (hu : u.Unambiguous) (rs : List Routine) :
    (scratch ++ (wanted u rs).map (·.1)).Nodup := by
  have hslots : ((owners rs (referenced rs)).flatMap (slotLabels u (referenced rs))).Nodup := by
    refine (nodup_slots_iff rs _).2 fun m d hd => ?_
    obtain ⟨c, hc, hm⟩ := Universe.of_findMethod hd
    exact ⟨fun k _ => Nat.le_trans (hu.parameters c hc d hm) (Nat.le_add_left ..),
      fun k _ => Nat.le_trans (hu.locals c hc d hm) (Nat.le_add_left ..)⟩
  rw [map_wanted]
  refine List.Nodup.append (by decide) (List.Nodup.append (nodup_globals hu.types hu.fields _)
    hslots ?_) ?_
  · intro l hglobal hslot
    obtain ⟨f, rfl⟩ := global_of_mem_globals hglobal
    obtain ⟨m, hm⟩ := owner_of_mem_slots hslot
    cases hm
  · intro l hscratch hl
    rcases List.mem_append.1 hl with hglobal | hslot
    · obtain ⟨f, rfl⟩ := global_of_mem_globals hglobal
      exact absurd hscratch (by simp [scratch])
    · obtain ⟨m, hm⟩ := owner_of_mem_slots hslot
      rcases List.mem_pair.1 hscratch with rfl | rfl <;> cases hm

/-! ### Placing labels -/

/-- The assignments are those of the placements, and no address is above the limit. -/
structure Faithful (r : Resolution) : Prop where
  assignments : r.assignments =
    r.ram.placements.map fun p => assign p.label (.address (UInt16.ofNat p.address))
  bounded : ∀ p ∈ r.ram.placements, p.address ≤ r.ram.bounds.limit

/-- A label that is not placed yet gets the next address. -/
theorem of_place {r r' : Resolution} {l : Label} {size : Nat} (hr : Faithful r)
    (hl : l ∉ r.ram.placements.map (·.label)) (h : r.place l size = .ok r') :
    Faithful r' ∧ r'.ram = { r.ram with
      placements := r.ram.placements ++ [⟨l, r.ram.next, size⟩], next := r.ram.next + size } := by
  have hnone : r.ram.addressOf? l = none := by
    rw [Ram.addressOf?, Option.map_eq_none_iff, List.find?_eq_none]
    intro p hp heq
    exact hl (List.mem_map.2 ⟨p, hp, eq_of_beq heq⟩)
  obtain ⟨⟨address, ram⟩, hram, h⟩ := bind_eq_ok.1 h
  cases pure_eq_ok.1 h
  simp only [Ram.allocate, hnone] at hram
  split at hram
  · next hroom =>
    cases hram
    refine ⟨⟨?_, ?_⟩, rfl⟩
    · rw [hr.assignments, List.map_append]
      rfl
    · refine List.forall_mem_append.2 ⟨hr.bounded, List.forall_mem_singleton.2 ?_⟩
      exact Nat.le_trans (Nat.le_add_right ..) hroom
  · cases hram

/-- **Distinct labels are placed one by one.** -/
theorem of_placeAll {r r' : Resolution} {slots : List (Label × TypeName)} (hr : Faithful r)
    (hnodup : (r.ram.placements.map (·.label) ++ slots.map (·.1)).Nodup)
    (h : r.placeAll u slots = .ok r') :
    Faithful r' ∧ r'.ram.bounds = r.ram.bounds ∧
      ∃ ps, r'.ram.placements = r.ram.placements ++ ps ∧ ps.map (·.label) = slots.map (·.1) ∧
        ∀ p ∈ ps, ∃ t, (p.label, t) ∈ slots ∧ sizeOf u t = .ok p.size := by
  induction slots generalizing r with
  | nil =>
    cases pure_eq_ok.1 h
    exact ⟨hr, rfl, [], (List.append_nil _).symm, rfl, by simp⟩
  | cons slot slots ih =>
    rw [placeAll, List.foldlM_cons] at h
    obtain ⟨mid, hmid, h⟩ := bind_eq_ok.1 h
    obtain ⟨size, hsize, hmid⟩ := bind_eq_ok.1 hmid
    -- A label that has an address is not placed again, which is why labels have to be distinct.
    have hfresh : slot.1 ∉ r.ram.placements.map (·.label) := fun hmem =>
      List.disjoint_of_nodup_append hnodup hmem (List.mem_cons_self ..)
    obtain ⟨hmidFaithful, hram⟩ := of_place hr hfresh hmid
    have hnodup' : (mid.ram.placements.map (·.label) ++ slots.map (·.1)).Nodup := by
      rw [hram]
      simpa [List.append_assoc] using hnodup
    obtain ⟨hfaithful, hbounds, ps, hps, hlabels, hsizes⟩ := ih hmidFaithful hnodup' h
    refine ⟨hfaithful, by rw [hbounds, hram], ⟨slot.1, r.ram.next, size⟩ :: ps, ?_, ?_, ?_⟩
    · rw [hps, hram, List.append_assoc, List.singleton_append]
    · rw [List.map_cons, List.map_cons, hlabels]
    · refine List.forall_mem_cons.2 ⟨⟨slot.2, List.mem_cons_self .., hsize⟩, fun p hp => ?_⟩
      obtain ⟨t, ht, hsize⟩ := hsizes p hp
      exact ⟨t, List.mem_cons_of_mem _ ht, hsize⟩

/-- The placements of scratch memory. -/
def scratchPlacements (bounds : RamBounds) : List Placement :=
  [⟨.reserved 0, bounds.start, 1⟩, ⟨.reserved 1, bounds.start + 1, 1⟩]

theorem of_scratch {bounds : RamBounds} {r : Resolution}
    (h : scratch.foldlM (fun r l => r.place l 1) (⟨[], .empty bounds⟩ : Resolution) = .ok r) :
    Faithful r ∧ r.ram.bounds = bounds ∧ r.ram.placements = scratchPlacements bounds := by
  obtain ⟨r₀, h₀, h⟩ := bind_eq_ok.1 h
  obtain ⟨r₁, h₁, h⟩ := bind_eq_ok.1 h
  cases pure_eq_ok.1 h
  have hempty : Faithful ⟨[], .empty bounds⟩ := ⟨rfl, by simp [Ram.empty]⟩
  obtain ⟨hr₀, hram₀⟩ := of_place hempty (by simp [Ram.empty]) h₀
  obtain ⟨hr₁, hram₁⟩ := of_place hr₀ (by simp [hram₀, Ram.empty]) h₁
  refine ⟨hr₁, by rw [hram₁, hram₀]; rfl, ?_⟩
  rw [hram₁, hram₀]
  rfl

/-- The slots of methods are placed as one list. -/
theorem placeAll_of_placeSlots {ms : List Member} {r r' : Resolution}
    (h : ms.foldlM (placeSlots u refs) r = .ok r') :
    r.placeAll u (ms.flatMap (wantedSlots u refs)) = .ok r' := by
  induction ms generalizing r with
  | nil => exact h
  | cons m ms ih =>
    rw [List.foldlM_cons] at h
    obtain ⟨mid, hmid, h⟩ := bind_eq_ok.1 h
    obtain ⟨d, hd, hmid⟩ := bind_eq_ok.1 hmid
    rw [List.flatMap_cons, placeAll, List.foldlM_append]
    refine bind_eq_ok.2 ⟨mid, ?_, ih h⟩
    rw [wantedSlots, hd]
    exact hmid

/-- Everything after scratch memory is placed as one list, before the entries without an address. -/
theorem placeAll_wanted {bounds : RamBounds} {res : Resolution}
    (h : ofRoutines u bounds rs = .ok res) :
    ∃ r r', scratch.foldlM (fun r l => r.place l 1) (⟨[], .empty bounds⟩ : Resolution) = .ok r ∧
      r.placeAll u (wanted u rs) = .ok r' ∧ res.ram = r'.ram ∧
      ∃ rest, res.assignments = r'.assignments ++ rest ∧
        ∀ e ∈ rest, e.assignedAddress? = none := by
  obtain ⟨r, hr, h⟩ := bind_eq_ok.1 h
  obtain ⟨mid, hmid, h⟩ := bind_eq_ok.1 h
  obtain ⟨r', hr', h⟩ := bind_eq_ok.1 h
  obtain ⟨aliasEntries, haliases, h⟩ := bind_eq_ok.1 h
  obtain ⟨typeEntries, htypes, h⟩ := bind_eq_ok.1 h
  cases pure_eq_ok.1 h
  refine ⟨r, r', hr, ?_, rfl, aliasEntries ++ typeEntries, List.append_assoc .., ?_⟩
  · rw [wanted, placeAll, List.foldlM_append]
    exact bind_eq_ok.2 ⟨mid, hmid, placeAll_of_placeSlots hr'⟩
  · refine List.forall_mem_append.2 ⟨?_, ?_⟩
    · rw [(of_assignAliases haliases).1]
      exact List.forall_mem_map.2 fun a _ => rfl
    · obtain ⟨parts, hparts, htypes⟩ := bind_eq_ok.1 htypes
      cases pure_eq_ok.1 htypes
      refine List.forall_mem_append.2 ⟨fun e he => ?_, List.forall_mem_map.2 fun w _ => rfl⟩
      obtain ⟨part, hpart, he⟩ := List.mem_flatten.1 he
      obtain ⟨t, -, ht⟩ := exists_of_mem_mapM hparts hpart
      obtain ⟨size, -, ht⟩ := bind_eq_ok.1 ht
      cases pure_eq_ok.1 ht
      simp only [List.mem_cons, List.not_mem_nil, or_false] at he
      rcases he with rfl | rfl | rfl <;> rfl

/-! ### Exact memory -/

/-- Memory holds scratch memory and what routines need, each once, and every address is assigned. -/
structure ExactMemory (u : Universe) (bounds : RamBounds) (rs : List Routine) (res : Resolution) :
    Prop where
  scratch : scratchPlacements bounds <+: res.ram.placements
  /-- A static field has memory iff it has an alias or is mentioned. -/
  globals : ∀ f, .global f ∈ res.ram.placements.map (·.label) ↔
    ∃ t ∈ u.types, ∃ d ∈ t.fields, t.member d.name = f ∧ d.isRamStatic = true ∧
      (d.aliases ≠ [] ∨ ∃ r ∈ rs, r.Mentions (.global f))
  /-- A parameter, local or result has memory iff it is mentioned and declared. -/
  slots : ∀ l m, l.owner? = some m → (l ∈ res.ram.placements.map (·.label) ↔
    (∃ r ∈ rs, r.Mentions l) ∧ ∃ t, l.Stores u t)
  nodup : (res.ram.placements.map (·.label)).Nodup
  /-- Whatever is no scratch memory has one declared type, and the size of that type. -/
  sizes : ∀ p ∈ res.ram.placements, p.label ∉ Resolution.scratch →
    ∃ t, (∀ t', p.label.Stores u t' ↔ t' = t) ∧ sizeOf u t = .ok p.size
  addresses : res.assignments.filterMap (·.assignedAddress?) =
    res.ram.placements.map fun p => (p.label, p.address)

theorem scratchPlacements_labels (bounds : RamBounds) :
    (scratchPlacements bounds).map (·.label) = scratch := rfl

theorem assignedAddress?_of_faithful {r : Resolution} (hr : Faithful r)
    (hbounds : r.ram.bounds.limit < UInt16.size) :
    r.assignments.filterMap (·.assignedAddress?) =
      r.ram.placements.map fun p => (p.label, p.address) := by
  rw [hr.assignments, List.filterMap_map, ← List.filterMap_eq_map]
  refine List.filterMap_congr fun p hp => ?_
  have hlt : p.address < UInt16.size := Nat.lt_of_le_of_lt (hr.bounded p hp) hbounds
  simp only [Function.comp_apply, assign, Entry.assignedAddress?, UInt16.toNat_ofNat_of_lt' hlt]

/-- **Resolution gives memory exactly to what is needed**: to scratch memory, to static fields in
RAM that have an alias or are mentioned by a routine, and to the declared parameters, locals and
results that are mentioned, with the sizes of their declared types; and it assigns just their
addresses. -/
theorem exactMemory_of_ofRoutines {u : Universe} (hu : u.Unambiguous) (start stop reserve : UInt16)
    {rs : List Routine} {res : Resolution}
    (h : ofRoutines u ⟨start.toNat, stop.toNat, reserve.toNat⟩ rs = .ok res) :
    ExactMemory u ⟨start.toNat, stop.toNat, reserve.toNat⟩ rs res := by
  obtain ⟨r, r', hscratch, hwanted, hram, rest, hassign, hrest⟩ := placeAll_wanted h
  obtain ⟨hr, hbounds, hplaced⟩ := of_scratch hscratch
  have hnodup := nodup_wanted hu rs
  rw [← scratchPlacements_labels ⟨start.toNat, stop.toNat, reserve.toNat⟩, ← hplaced] at hnodup
  obtain ⟨hr', hbounds', ps, hps, hlabels, hsizes⟩ := of_placeAll hr hnodup hwanted
  rw [hplaced] at hps hnodup
  have hmem : ∀ l, l ∉ Resolution.scratch →
      (l ∈ res.ram.placements.map (·.label) ↔ l ∈ (wanted u rs).map (·.1)) := by
    intro l hl
    rw [hram, hps, List.map_append, List.mem_append, hlabels, scratchPlacements_labels]
    exact or_iff_right hl
  -- Addresses fit 16 bits, so that no assignment cuts one off.
  have hlimit : r'.ram.bounds.limit < UInt16.size := by
    have hstart := start.toNat_lt
    have hstop := stop.toNat_lt
    rw [hbounds', hbounds]
    simp only [RamBounds.limit, UInt16.size]
    omega
  refine ⟨?_, fun f => ?_, fun l m hl => ?_, ?_, fun p hp hnot => ?_, ?_⟩
  · rw [hram, hps]
    exact List.prefix_append ..
  · rw [hmem _ (by simp [Resolution.scratch]), global_mem_wanted]
  · have hnot : l ∉ Resolution.scratch := by
      intro hmem
      rcases List.mem_pair.1 hmem with rfl | rfl <;> cases hl
    rw [hmem l hnot, slot_mem_wanted hu hl]
  · rwa [hram, hps, List.map_append, hlabels]
  · rw [hram, hps] at hp
    rcases List.mem_append.1 hp with hp | hp
    · exact absurd (List.mem_map_of_mem (f := (·.label)) hp) hnot
    · obtain ⟨t, ht, hsize⟩ := hsizes p hp
      have hstores := stores_of_mem_wanted hu ht
      exact ⟨t, fun t' => ⟨fun h' => h'.unique hu hstores, fun heq => heq ▸ hstores⟩, hsize⟩
  · have hnone : rest.filterMap (·.assignedAddress?) = [] := List.filterMap_eq_nil_iff.2 hrest
    rw [hassign, List.filterMap_append, hnone, List.append_nil, hram]
    exact assignedAddress?_of_faithful hr' hlimit

/-- Static fields with an alias, with data in ROM and without either, and a method that may be
inlined. -/
def arcade : Universe :=
  let types : List TypeDecl :=
    [{ name := .byte, primitiveSize := some 1 }, { name := .boolean, primitiveSize := some 1 },
     { name := .nothing, primitiveSize := some 0 },
     { name := ⟨"Screen"⟩
       fields :=
         [{ name := "colors", type := .byte, isStatic := true, romData := some ⟨.byte, [1, 2]⟩ },
          { name := "beam", type := .byte, isStatic := true, aliases := ["ALIAS_BEAM"] }] },
     { name := ⟨"Game"⟩
       fields :=
         [{ name := "score", type := .byte, isStatic := true },
          { name := "lives", type := .byte, isStatic := true }]
       methods :=
         [{ name := "Main", locals := [.byte, .byte] },
          { name := "Hit", parameters := [⟨"by", .byte⟩], returnType := .byte }] }]
  ⟨[{ name := "Game", types, entryPoint := some ⟨⟨"Game"⟩, "Main"⟩ }]⟩

theorem unambiguous_arcade : arcade.Unambiguous :=
  ⟨by decide, by decide, by decide, by decide⟩

/-- The body refers to a field and to the second of two locals, and the parameter of an inlined
method is lifted. An index without a local is ignored. -/
theorem exactMemory_of_ofRoutines_arcade :
    let main : Member := ⟨⟨"Game"⟩, "Main"⟩
    let score : Label := .global ⟨⟨"Game"⟩, "score"⟩
    let rs : List Routine := [
      { method := main
        body := [.synthetic (.copyGlobalToGlobal score (.size .byte) (.localSlot main 1)
          (.size .byte)), .synthetic (.storeTo (.localSlot main 2))]
        lifted := [.argument ⟨⟨"Game"⟩, "Hit"⟩ 0] }]
    arcade.Unambiguous ∧ ∃ res, ofRoutines arcade ⟨0x80, 0x100, 0x10⟩ rs = .ok res ∧
      res.ram.placements.map (·.label) = [.reserved 0, .reserved 1, .global ⟨⟨"Screen"⟩, "beam"⟩,
        score, .localSlot main 1, .argument ⟨⟨"Game"⟩, "Hit"⟩ 0] ∧
      ExactMemory arcade ⟨0x80, 0x100, 0x10⟩ rs res := by
  intro main score rs
  have hlabels : (ofRoutines arcade ⟨0x80, 0x100, 0x10⟩ rs).map
      (fun res => res.ram.placements.map (·.label)) =
      .ok [.reserved 0, .reserved 1, .global ⟨⟨"Screen"⟩, "beam"⟩, score, .localSlot main 1,
        .argument ⟨⟨"Game"⟩, "Hit"⟩ 0] := by
    decide +kernel
  obtain ⟨res, hres, hlabels⟩ := map_eq_ok.1 hlabels
  exact ⟨unambiguous_arcade, res, hres, hlabels,
    exactMemory_of_ofRoutines unambiguous_arcade 0x80 0x100 0x10 hres⟩

/-- **A field that is only lifted gets memory too**, although it has no alias and no body refers to
it. -/
theorem lifted_global_is_placed :
    let score : Member := ⟨⟨"Game"⟩, "score"⟩
    let rs : List Routine :=
      [{ method := ⟨⟨"Game"⟩, "Main"⟩, body := [], lifted := [.global score] }]
    arcade.Unambiguous ∧ ∃ res, ofRoutines arcade ⟨0x80, 0x100, 0x10⟩ rs = .ok res ∧
      .global score ∈ res.ram.placements.map (·.label) ∧
      ¬ ∃ t ∈ arcade.types, ∃ d ∈ t.fields, t.member d.name = score ∧ d.isRamStatic = true ∧
        (d.aliases ≠ [] ∨ ∃ r ∈ rs, .global score ∈ r.labels) := by
  intro score rs
  have hlabels : (ofRoutines arcade ⟨0x80, 0x100, 0x10⟩ rs).map
      (fun res => res.ram.placements.map (·.label)) =
      .ok [.reserved 0, .reserved 1, .global ⟨⟨"Screen"⟩, "beam"⟩, .global score] := by
    decide +kernel
  obtain ⟨res, hres, hlabels⟩ := map_eq_ok.1 hlabels
  refine ⟨unambiguous_arcade, res, hres, ?_, by decide +kernel⟩
  rw [hlabels]
  simp

end Resolution

end Cartridge
