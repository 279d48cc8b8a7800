import Cartridge.Allocator
import Cartridge.Proofs.Ram
import Std.Data.HashMap.Lemmas

/-!
# The allocator after any calls

An allocator is RAM with numbers as words and with an index (`Allocator.ram` is the RAM without
them). The index holds the position of every label in the list (`Allocator.Indexed`), so that no
position is ever out of range. `Allocator.call` is one request, and `Allocator.call_cases` lists
what it can do. An end that is not above the limit fits a word, so that every request does to RAM
what `Ram.call` does (`Allocator.call_refines`), and so does any sequence of requests
(`Allocator.after_refines`).

**`Allocator.orderly_of_calls`**: whatever the bounds are and whatever has been asked for,
allocations follow one another from the start of RAM to the cursor, no label is placed twice, the
index agrees with the list, no difference is below zero, and the next call does what it should.
-/

namespace Cartridge

/-! ### Words and numbers -/

theorem toNat_saturatingSub (a b : UInt16) : (saturatingSub a b).toNat = a.toNat - b.toNat := by
  unfold saturatingSub
  split
  · next h => exact UInt16.toNat_sub_of_le _ _ h
  · next h =>
    have hlt := UInt16.lt_iff_toNat_lt.1 (UInt16.not_le.1 h)
    exact (Nat.sub_eq_zero_of_le hlt.le).symm

theorem exists_checkedSub {a b : UInt16} (h : b ≤ a) :
    ∃ c, checkedSub a b = .ok c ∧ b.toNat + c.toNat = a.toNat := by
  refine ⟨a - b, if_pos h, ?_⟩
  rw [UInt16.toNat_sub_of_le _ _ h]
  exact Nat.add_sub_cancel' (UInt16.le_iff_toNat_le.1 h)

namespace WordBounds

/-- The bounds in numbers. -/
def toBounds (b : WordBounds) : RamBounds := ⟨b.start.toNat, b.stop.toNat, b.reserve.toNat⟩

theorem toNat_limit (b : WordBounds) : b.limit.toNat = b.toBounds.limit := by
  have htop := toNat_saturatingSub b.stop b.reserve
  simp only [limit, RamBounds.limit, toBounds, UInt16.le_iff_toNat_le]
  split <;> omega

end WordBounds

/-- The allocation in numbers. -/
def Allocation.toPlacement (p : Allocation) : Placement := ⟨p.label, p.address.toNat, p.size.toNat⟩

namespace Allocator

variable {a : Allocator} {l : Label} {size : UInt16}

/-- RAM as the allocator has handed it out. -/
def ram (a : Allocator) : Ram :=
  ⟨a.bounds.toBounds, a.allocations.toList.map (·.toPlacement), a.next.toNat⟩

/-- The labels that are placed. -/
def labels (a : Allocator) : List Label := a.allocations.toList.map (·.label)

theorem map_label_ram (a : Allocator) : a.ram.placements.map (·.label) = a.labels := by
  rw [ram, labels, List.map_map]
  rfl

theorem mem_placements_ram {p : Placement} :
    p ∈ a.ram.placements ↔ ∃ q ∈ a.allocations, q.toPlacement = p := by
  simp [ram]

/-! ### The index -/

/-- The index holds the positions of the labels in the list. -/
def Indexed (a : Allocator) : Prop :=
  ∀ (l : Label) (i : Nat), a.index[l]? = some i ↔ a.labels[i]? = some l

theorem indexed_empty (b : WordBounds) : (empty b).Indexed := by
  intro l i
  simp [empty, labels]

namespace Indexed

theorem nodup (h : a.Indexed) : a.labels.Nodup := by
  rw [List.nodup_iff_getElem?_ne_getElem?]
  intro i j hij hj heq
  obtain ⟨l, hl⟩ : ∃ l, a.labels[j]? = some l := ⟨_, List.getElem?_eq_getElem hj⟩
  have hi := (h l i).2 (heq.trans hl)
  rw [(h l j).2 hl] at hi
  exact hij.ne (Option.some.inj hi).symm

/-- **No position is out of range**, and the allocation there is the label's. -/
theorem exists_allocationAt (h : a.Indexed) {i : Nat} (hi : a.index[l]? = some i) :
    ∃ p ∈ a.allocations, p.label = l ∧ a.allocationAt i = .ok p := by
  have hlabel := (h l i).1 hi
  rw [labels, List.getElem?_map] at hlabel
  obtain ⟨p, hp, rfl⟩ := Option.map_eq_some_iff.1 hlabel
  refine ⟨p, Array.mem_def.2 (List.mem_of_getElem? hp), rfl, ?_⟩
  rw [Array.getElem?_toList] at hp
  rw [allocationAt, hp]

theorem not_mem_labels (h : a.Indexed) (hl : a.index[l]? = none) : l ∉ a.labels := by
  intro hmem
  obtain ⟨i, hi⟩ := List.mem_iff_getElem?.1 hmem
  rw [(h l i).2 hi] at hl
  cases hl

theorem eq_of_label (h : a.Indexed) {p q : Allocation} (hp : p ∈ a.allocations)
    (hq : q ∈ a.allocations) (heq : p.label = q.label) : p = q :=
  List.inj_on_of_nodup_map h.nodup (Array.mem_def.1 hp) (Array.mem_def.1 hq) heq

/-- **The index agrees with the list.** -/
theorem addressOf? (h : a.Indexed) (l : Label) :
    ∃ found, a.addressOf? l = .ok found ∧
      ∀ address, found = some address ↔ ∃ p ∈ a.allocations, p.label = l ∧ p.address = address := by
  unfold Allocator.addressOf?
  cases hi : a.index[l]? with
  | none =>
    refine ⟨none, rfl, fun address => ⟨nofun, ?_⟩⟩
    rintro ⟨p, hp, rfl, -⟩
    exact absurd (List.mem_map_of_mem (Array.mem_def.1 hp)) (h.not_mem_labels hi)
  | some i =>
    obtain ⟨p, hp, rfl, hat⟩ := h.exists_allocationAt hi
    refine ⟨some p.address, by simp only [hat]; rfl, fun address => ⟨?_, ?_⟩⟩
    · rintro ⟨⟩
      exact ⟨p, hp, rfl, rfl⟩
    · rintro ⟨q, hq, heq, rfl⟩
      rw [h.eq_of_label hq hp heq]

end Indexed

/-! ### What a call can do -/

/-- What a request for memory returns, and the allocator after it. -/
def call (a : Allocator) (l : Label) (size : UInt16) : Except Failure UInt16 × Allocator :=
  (allocate l size).run.run a

/-- The allocator after some requests, also failed ones. -/
def after (a : Allocator) (calls : List (Label × UInt16)) : Allocator :=
  calls.foldl (fun a c => (a.call c.1 c.2).2) a

/-- The allocator with one more label at the cursor. -/
def extend (a : Allocator) (l : Label) (size : UInt16) : Allocator where
  bounds := a.bounds
  next := (a.next.toUInt32 + size.toUInt32).toUInt16
  allocations := a.allocations.push ⟨l, a.next, size⟩
  index := a.index.insert l a.allocations.size

/-- Why a request for a label is refused. -/
def exhausted (a : Allocator) (l : Label) (size : UInt16) : Failure :=
  .refused (.ramExhausted l.text size.toNat a.next.toNat a.bounds.limit.toNat)

theorem run_get_bind {α : Type} (f : Allocator → Request α) (a : Allocator) :
    (get >>= f : Request α).run.run a = (f a).run.run a := rfl

theorem run_place (a : Allocator) (l : Label) (size : UInt16) :
    (place l size).run.run a =
      if a.bounds.limit.toUInt32 < a.next.toUInt32 + size.toUInt32
      then (.error (a.exhausted l size), a)
      else (.ok a.next, a.extend l size) := by
  simp only [place, run_get_bind]
  split <;> rfl

theorem call_of_index {i : Nat} (h : a.index[l]? = some i) :
    a.call l size = ((a.allocationAt i).map (·.address), a) := by
  simp only [call, allocate, run_get_bind, h]
  cases a.allocationAt i <;> rfl

theorem call_of_not_index (h : a.index[l]? = none) :
    a.call l size = (place l size).run.run a := by
  simp only [call, allocate, run_get_bind, h]

/-- The end of an allocation does not wrap around in twice the width. -/
theorem toNat_stop (next size : UInt16) :
    (next.toUInt32 + size.toUInt32).toNat = next.toNat + size.toNat := by
  have hnext := next.toNat_lt
  have hsize := size.toNat_lt
  rw [UInt32.toNat_add, UInt16.toNat_toUInt32, UInt16.toNat_toUInt32]
  exact Nat.mod_eq_of_lt (by omega)

/-- **What a call can do**: find the label, place it, or fail. -/
theorem call_cases (h : a.Indexed) (l : Label) (size : UInt16) :
    (∃ p ∈ a.allocations, p.label = l ∧ a.call l size = (.ok p.address, a)) ∨
    (l ∉ a.labels ∧ a.next.toNat + size.toNat ≤ a.bounds.limit.toNat ∧
      a.call l size = (.ok a.next, a.extend l size)) ∨
    (l ∉ a.labels ∧ a.bounds.limit.toNat < a.next.toNat + size.toNat ∧
      a.call l size = (.error (a.exhausted l size), a)) := by
  cases hl : a.index[l]? with
  | some i =>
    obtain ⟨p, hp, hlabel, hat⟩ := h.exists_allocationAt hl
    refine .inl ⟨p, hp, hlabel, ?_⟩
    rw [call_of_index hl, hat]
    rfl
  | none =>
    have hnew := h.not_mem_labels hl
    refine .inr ?_
    rw [call_of_not_index hl, run_place]
    simp only [UInt32.lt_iff_toNat_lt, toNat_stop, UInt16.toNat_toUInt32]
    by_cases hroom : a.bounds.limit.toNat < a.next.toNat + size.toNat
    · exact .inr ⟨hnew, hroom, if_pos hroom⟩
    · exact .inl ⟨hnew, Nat.le_of_not_lt hroom, if_neg hroom⟩

/-! ### Refinement -/

theorem labels_extend (a : Allocator) (l : Label) (size : UInt16) :
    (a.extend l size).labels = a.labels ++ [l] := by
  simp [labels, extend]

theorem Indexed.extend (h : a.Indexed) (hl : l ∉ a.labels) : (a.extend l size).Indexed := by
  intro l' i
  have hlength : a.labels.length = a.allocations.size := by simp [labels]
  have hlist : (a.labels ++ [l])[i]? = some l' ↔
      a.labels[i]? = some l' ∨ i = a.labels.length ∧ l = l' := by
    grind
  rw [labels_extend, hlist, ← h l' i, hlength]
  change (a.index.insert l a.allocations.size)[l']? = some i ↔ _
  rw [Std.HashMap.getElem?_insert]
  by_cases heq : l = l'
  · subst heq
    have hnew : a.index[l]? ≠ some i := fun hi => hl (List.mem_of_getElem? ((h l i).1 hi))
    simp [hnew, eq_comm]
  · simp [heq]

/-- An end that is not above the limit fits a word. -/
theorem toNat_next_extend (hroom : a.next.toNat + size.toNat ≤ a.bounds.limit.toNat) :
    (a.extend l size).next.toNat = a.next.toNat + size.toNat := by
  have hlimit := a.bounds.limit.toNat_lt
  change (a.next.toUInt32 + size.toUInt32).toUInt16.toNat = _
  rw [UInt32.toNat_toUInt16, toNat_stop]
  exact Nat.mod_eq_of_lt (by omega)

theorem ram_extend (hroom : a.next.toNat + size.toNat ≤ a.bounds.limit.toNat) :
    (a.extend l size).ram = a.ram.extend l size.toNat := by
  have hnext := toNat_next_extend (l := l) hroom
  rw [ram, hnext]
  simp [extend, Ram.extend, ram, Allocation.toPlacement]

/-- **A call does to RAM what it should**, and its index stays right. -/
theorem call_refines (h : a.Indexed) (l : Label) (size : UInt16) :
    (a.call l size).2.Indexed ∧ (a.call l size).2.bounds = a.bounds ∧
      (a.call l size).2.ram = (a.ram.call l size.toNat).2 ∧
      (a.call l size).1.map (·.toNat) = (a.ram.call l size.toNat).1.mapError .refused := by
  have hnodup : (a.ram.placements.map (·.label)).Nodup := map_label_ram a ▸ h.nodup
  obtain ⟨p, hp, rfl, hcall⟩ | ⟨hl, hroom, hcall⟩ | ⟨hl, hroom, hcall⟩ := call_cases h l size
  · have hram := Ram.call_of_mem hnodup (mem_placements_ram.2 ⟨p, hp, rfl⟩) size.toNat
    rw [hcall, show p.label = p.toPlacement.label from rfl, hram]
    exact ⟨h, rfl, rfl, rfl⟩
  · have hram := Ram.call_of_room (map_label_ram a ▸ hl) (a.bounds.toNat_limit ▸ hroom)
    rw [hcall, hram]
    exact ⟨h.extend hl, rfl, ram_extend hroom, rfl⟩
  · have hram := Ram.call_of_no_room (map_label_ram a ▸ hl) (a.bounds.toNat_limit ▸ hroom)
    rw [hcall, hram, exhausted, a.bounds.toNat_limit]
    exact ⟨h, rfl, rfl, rfl⟩

/-- **Any calls do to RAM what they should.** -/
theorem after_refines (h : a.Indexed) (calls : List (Label × UInt16)) :
    (a.after calls).Indexed ∧ (a.after calls).bounds = a.bounds ∧
      (a.after calls).ram = a.ram.after calls := by
  induction calls generalizing a with
  | nil => exact ⟨h, rfl, rfl⟩
  | cons c calls ih =>
    obtain ⟨hindexed, hbounds, hram, -⟩ := call_refines h c.1 c.2
    obtain ⟨hindexed', hbounds', hram'⟩ := ih hindexed
    refine ⟨hindexed', hbounds'.trans hbounds, hram'.trans ?_⟩
    rw [hram]
    rfl

/-! ### Answers -/

/-- What a call answers, and what it does to the whole state. -/
structure Responds (a : Allocator) (l : Label) (size : UInt16) : Prop where
  /-- A call fails iff the label is new and there is not enough room. -/
  fails : ∀ e, (a.call l size).1 = .error e ↔ l ∉ a.labels ∧
    a.bounds.limit.toNat < a.next.toNat + size.toNat ∧
    e = .refused (.ramExhausted l.text size.toNat a.next.toNat a.bounds.limit.toNat)
  /-- A call that fails changes nothing. -/
  unchanged : ∀ e, (a.call l size).1 = .error e → (a.call l size).2 = a
  /-- A label that is placed keeps its address, and nothing changes. -/
  again : ∀ p ∈ a.allocations, p.label = l → a.call l size = (.ok p.address, a)
  /-- A new label with enough room is placed at the cursor. -/
  places : l ∉ a.labels → a.next.toNat + size.toNat ≤ a.bounds.limit.toNat →
    (a.call l size).1 = .ok a.next ∧
      (a.call l size).2.allocations = a.allocations.push ⟨l, a.next, size⟩ ∧
      (a.call l size).2.next.toNat = a.next.toNat + size.toNat

theorem responds (h : a.Indexed) (l : Label) (size : UInt16) : a.Responds l size := by
  have hlabel : ∀ p ∈ a.allocations, p.label ∈ a.labels := fun p hp =>
    List.mem_map_of_mem (Array.mem_def.1 hp)
  obtain ⟨p, hp, rfl, hcall⟩ | ⟨hl, hroom, hcall⟩ | ⟨hl, hroom, hcall⟩ := call_cases h l size
  · refine ⟨fun e => ?_, fun e _ => by rw [hcall], fun q hq heq => ?_, fun hl _ => ?_⟩
    · rw [hcall]
      exact ⟨nofun, fun he => absurd (hlabel p hp) he.1⟩
    · rw [hcall, h.eq_of_label hq hp heq]
    · exact absurd (hlabel p hp) hl
  · refine ⟨fun e => ?_, fun e he => ?_, fun q hq heq => ?_, fun _ _ => ?_⟩
    · rw [hcall]
      exact ⟨nofun, fun he => absurd he.2.1 (Nat.not_lt.2 hroom)⟩
    · rw [hcall] at he
      cases he
    · exact absurd (heq ▸ hlabel q hq) hl
    · rw [hcall]
      exact ⟨rfl, rfl, toNat_next_extend hroom⟩
  · refine ⟨fun e => ?_, fun e _ => by rw [hcall], fun q hq heq => ?_, fun _ hle => ?_⟩
    · rw [hcall]
      exact ⟨fun he => ⟨hl, hroom, (Except.error.inj he).symm⟩, fun he => by rw [he.2.2]; rfl⟩
    · exact absurd (heq ▸ hlabel q hq) hl
    · exact absurd hroom (Nat.not_lt.2 hle)

/-- **A label keeps its first address.** Whatever is asked for in between, a later call for the
label returns what the first one returned, and changes nothing. -/
theorem call_after_call (h : a.Indexed) {address : UInt16} (ha : (a.call l size).1 = .ok address)
    (calls : List (Label × UInt16)) (size' : UInt16) :
    ((a.call l size).2.after calls).call l size' =
      (.ok address, (a.call l size).2.after calls) := by
  obtain ⟨hindexed, -, hram, hresult⟩ := call_refines h l size
  obtain ⟨hindexed', -, hram'⟩ := after_refines hindexed calls
  -- The placement of the label is found in RAM, where it stays.
  have hcall : (a.ram.call l size.toNat).1 = .ok address.toNat := by
    rw [ha] at hresult
    cases hr : (a.ram.call l size.toNat).1 with
    | ok n =>
      rw [hr] at hresult
      exact congrArg Except.ok (Except.ok.inj hresult).symm
    | error e =>
      rw [hr] at hresult
      cases hresult
  obtain ⟨p, hp, hlabel, haddress⟩ := Ram.placed_of_call hcall
  rw [← hram] at hp
  have hmem := (Ram.keeps_after (a.call l size).2.ram calls).2.subset hp
  rw [← hram'] at hmem
  obtain ⟨q, hq, rfl⟩ := mem_placements_ram.1 hmem
  rw [(responds hindexed' l size').again q hq hlabel, UInt16.toNat_inj.1 haddress]

/-! ### Order -/

/-- The cursor is inside the bounds, so that their differences are not below zero. -/
structure InBounds (a : Allocator) : Prop where
  start_le : a.bounds.start ≤ a.next
  next_le : a.next ≤ a.bounds.limit
  capacity : ∃ n, a.bounds.capacity = .ok n ∧ a.bounds.start.toNat + n.toNat = a.bounds.limit.toNat
  remaining : ∃ n, a.remaining = .ok n ∧ a.next.toNat + n.toNat = a.bounds.limit.toNat

theorem inBounds (h : a.ram.Orderly) : a.InBounds := by
  have hstart : a.bounds.start ≤ a.next := UInt16.le_iff_toNat_le.2 h.start_le
  have hnext : a.next ≤ a.bounds.limit := by
    rw [UInt16.le_iff_toNat_le, a.bounds.toNat_limit]
    exact h.bounded
  exact ⟨hstart, hnext, exists_checkedSub (UInt16.le_trans hstart hnext), exists_checkedSub hnext⟩

/-- **Memory is handed out in order.** Take any bounds of 16 bits, also an end below the start or a
reserve above the end, and any calls. Afterwards RAM is what the same calls make of it in numbers:
the allocations follow one another without gaps or overlaps from the start of RAM to the cursor,
which is not above the limit, and no difference is below zero. No label is placed twice, and the
index finds the allocation of every label. The next call fails iff its label is new and there is not
enough room, and then changes nothing. A label that is placed keeps its first address, whatever is
asked for. -/
theorem orderly_of_calls (b : WordBounds) (calls : List (Label × UInt16)) :
    let a := (empty b).after calls
    a.bounds = b ∧ a.ram = (Ram.empty b.toBounds).after calls ∧ a.ram.Orderly ∧ a.InBounds ∧
      (a.ram.placements.Pairwise fun p q => p.address + p.size ≤ q.address) ∧
      (∀ l, ∃ found, a.addressOf? l = .ok found ∧ ∀ address,
        found = some address ↔ ∃ p ∈ a.allocations, p.label = l ∧ p.address = address) ∧
      ∀ (l : Label) (size : UInt16), a.Responds l size ∧
        ∀ address, (a.call l size).1 = .ok address →
          ∀ (more : List (Label × UInt16)) (size' : UInt16),
            let a' := (a.call l size).2.after more
            a'.call l size' = (.ok address, a') := by
  intro a
  obtain ⟨hindexed, hbounds, hram⟩ := after_refines (indexed_empty b) calls
  have horderly : a.ram.Orderly := by
    rw [hram]
    exact (Ram.orderly_empty b.toBounds).after calls
  exact ⟨hbounds, hram, horderly, inBounds horderly, horderly.pairwise, hindexed.addressOf?,
    fun l size => ⟨responds hindexed l size, fun address => call_after_call hindexed⟩⟩

end Allocator

end Cartridge
