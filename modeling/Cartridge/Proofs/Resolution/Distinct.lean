import Cartridge.Proofs.FirstOccurrence
import Cartridge.Proofs.Resolution

/-!
# Distinct assignments

Resolution assigns no label twice, if types and the fields of a type have distinct names, but for
one case: the index of a parameter or local has 16 bits, so that two slots of a method with more
than `UInt16.size` of them share a label. `Resolution.nodup_slotLabels_iff` says when.
-/

namespace Cartridge

namespace Resolution

variable {u : Universe}

/-! ### Fields and types -/

theorem nodup_globals (htypes : (u.types.map (·.name)).Nodup)
    (hfields : ∀ t ∈ u.types, (t.fields.map (·.name)).Nodup) (refs : List Label) :
    ((globals u refs).map (·.1)).Nodup := by
  rw [globals, List.map_flatMap, List.nodup_flatMap]
  refine ⟨fun t ht => ?_, (List.pairwise_map.1 htypes).imp fun hne => ?_⟩
  · have hnames : ((statics refs t).map (·.name)).Nodup := by
      refine ((List.mergeSort_perm _ _).map _).nodup_iff.2 ?_
      exact (hfields t ht).sublist (List.filter_sublist.map _)
    have hlabels := hnames.map (f := fun name => Label.global (t.member name)) fun a b hab =>
      (Member.mk.inj (Label.global.inj hab)).2
    rwa [List.map_map] at hlabels ⊢
  · intro l hl hl'
    simp only [List.mem_map] at hl hl'
    obtain ⟨_, ⟨f, -, rfl⟩, rfl⟩ := hl
    obtain ⟨_, ⟨f', -, rfl⟩, heq⟩ := hl'
    exact hne (Member.mk.inj (Label.global.inj heq)).1.symm

theorem nodup_typeLabels (refs : List Label) : ((numbered refs).flatMap typeLabels).Nodup := by
  rw [List.nodup_flatMap]
  refine ⟨fun t _ => by simp [typeLabels], (nodup_eraseDups _).imp fun hne => ?_⟩
  intro l hl hl'
  simp only [typeLabels, List.mem_cons, List.not_mem_nil, or_false] at hl hl'
  rcases hl with rfl | rfl | rfl <;> simp [hne] at hl'

/-! ### Slots -/

/-- Labels with an index of 16 bits are distinct iff none of those that are referred to comes again
after all indices. -/
theorem nodup_indexed_iff {label : UInt16 → Label} (hlabel : Function.Injective label)
    (refs : List Label) (n : Nat) :
    (((List.range n).map fun i => label (UInt16.ofNat i)).filter refs.contains).Nodup ↔
      ∀ k, label k ∈ refs → n ≤ k.toNat + UInt16.size := by
  rw [List.filter_map, List.nodup_map_iff_inj_on (List.nodup_range.filter _)]
  simp only [List.mem_filter, List.mem_range, Function.comp_apply, List.contains_iff_mem]
  constructor
  · intro h k hk
    by_contra hlt
    -- Otherwise the label comes at its own index and again after all indices.
    have hagain : UInt16.ofNat (k.toNat + UInt16.size) = UInt16.ofNat k.toNat := by
      rw [UInt16.ofNat_eq_iff_mod_eq_toNat, UInt16.toNat_ofNat', UInt16.size]
      omega
    have hmem : label (UInt16.ofNat k.toNat) ∈ refs := by rwa [UInt16.ofNat_toNat]
    have hmem' : label (UInt16.ofNat (k.toNat + UInt16.size)) ∈ refs := by rwa [hagain]
    have heq := h _ ⟨by omega, hmem'⟩ _ ⟨by omega, hmem⟩ (congrArg label hagain)
    rw [UInt16.size] at heq
    omega
  · rintro h i ⟨hi, hmem⟩ j ⟨hj, -⟩ hij
    have hbound := h _ hmem
    have hmod := congrArg UInt16.toNat (hlabel hij)
    rw [UInt16.toNat_ofNat', UInt16.toNat_ofNat'] at hmod
    rw [UInt16.toNat_ofNat', UInt16.size] at hbound
    omega

theorem map_zipIdx_eq {α : Type} (xs : List α) (label : UInt16 → Label) (type : α → TypeName) :
    (xs.zipIdx.map fun p => (label (UInt16.ofNat p.2), type p.1)).map (·.1) =
      (List.range xs.length).map fun i => label (UInt16.ofNat i) := by
  rw [List.range_eq_range', ← List.zipIdx_map_snd, List.map_map, List.map_map]
  rfl

theorem slotLabels_eq {m : Member} {d : MethodDecl} (hd : u.findMethod m = .ok d)
    (refs : List Label) :
    slotLabels u refs m =
      (((List.range d.parameters.length).map fun i => .argument m (UInt16.ofNat i)).filter
        refs.contains) ++
      (((List.range d.locals.length).map fun i => .localSlot m (UInt16.ofNat i)).filter
        refs.contains) ++ [.returnValue m].filter refs.contains := by
  have hslots : slotLabels u refs m = ((slots m d).map (·.1)).filter refs.contains := by
    rw [slotLabels, hd, List.filter_map]
    rfl
  rw [hslots, slots, List.map_append, List.map_append, List.filter_append, List.filter_append,
    map_zipIdx_eq _ (.argument m), map_zipIdx_eq _ (.localSlot m) fun t => t]
  rfl

theorem owner_of_mem_slotLabels {refs : List Label} {m : Member} {l : Label}
    (hl : l ∈ slotLabels u refs m) : l.owner? = some m := by
  unfold slotLabels at hl
  split at hl
  · obtain ⟨slot, hslot, rfl⟩ := List.mem_map.1 hl
    have hmem := (List.mem_filter.1 hslot).1
    simp only [slots, List.mem_append, List.mem_map, List.mem_singleton] at hmem
    rcases hmem with (⟨p, -, rfl⟩ | ⟨p, -, rfl⟩) | rfl <;> rfl
  · cases hl

/-- The slots of a method are distinct iff none that is referred to shares its index. -/
theorem nodup_slotLabels_iff {m : Member} {d : MethodDecl} (hd : u.findMethod m = .ok d)
    (refs : List Label) :
    (slotLabels u refs m).Nodup ↔
      (∀ k, .argument m k ∈ refs → d.parameters.length ≤ k.toNat + UInt16.size) ∧
      ∀ k, .localSlot m k ∈ refs → d.locals.length ≤ k.toNat + UInt16.size := by
  rw [slotLabels_eq hd, List.nodup_append, List.nodup_append,
    nodup_indexed_iff fun _ _ h => (Label.argument.inj h).2,
    nodup_indexed_iff fun _ _ h => (Label.localSlot.inj h).2]
  have hreturn : ([.returnValue m].filter refs.contains).Nodup :=
    (List.nodup_singleton _).filter _
  constructor
  · rintro ⟨⟨hargs, hlocals, -⟩, -⟩
    exact ⟨hargs, hlocals⟩
  · rintro ⟨hargs, hlocals⟩
    refine ⟨⟨hargs, hlocals, ?_⟩, hreturn, ?_⟩
    · rintro l hl l' hl' rfl
      obtain ⟨i, -, rfl⟩ := List.mem_map.1 (List.mem_filter.1 hl).1
      obtain ⟨j, -, hj⟩ := List.mem_map.1 (List.mem_filter.1 hl').1
      cases hj
    · rintro l hl l' hl' rfl
      cases List.mem_singleton.1 (List.mem_filter.1 hl').1
      rcases List.mem_append.1 hl with hl | hl
      all_goals
        obtain ⟨i, -, hi⟩ := List.mem_map.1 (List.mem_filter.1 hl).1
        cases hi

/-- All slots are distinct iff no slot that is referred to shares its index. -/
theorem nodup_slots_iff (routines : List Routine) (refs : List Label) :
    ((owners routines refs).flatMap (slotLabels u refs)).Nodup ↔
      ∀ m d, u.findMethod m = .ok d →
        (∀ k, .argument m k ∈ refs → d.parameters.length ≤ k.toNat + UInt16.size) ∧
        ∀ k, .localSlot m k ∈ refs → d.locals.length ≤ k.toNat + UInt16.size := by
  have hpairwise : (owners routines refs).Pairwise
      (Function.onFun List.Disjoint (slotLabels u refs)) := by
    refine (nodup_eraseDups _).imp fun hne l hl hl' => hne ?_
    exact Option.some.inj ((owner_of_mem_slotLabels hl).symm.trans (owner_of_mem_slotLabels hl'))
  rw [List.nodup_flatMap, and_iff_left hpairwise]
  constructor
  · intro h m d hd
    by_cases hm : m ∈ owners routines refs
    · exact (nodup_slotLabels_iff hd refs).1 (h m hm)
    · have hnone : ∀ l ∈ refs, l.owner? ≠ some m := fun l hl howner =>
        hm (List.mem_eraseDups.2 (List.mem_append_right _ (List.mem_filterMap.2 ⟨l, hl, howner⟩)))
      exact ⟨fun k hk => absurd rfl (hnone _ hk), fun k hk => absurd rfl (hnone _ hk)⟩
  · intro h m _
    cases hd : u.findMethod m with
    | ok d => exact (nodup_slotLabels_iff hd refs).2 (h m d hd)
    | error e =>
      rw [slotLabels, hd]
      exact List.nodup_nil

end Resolution

end Cartridge
