import Cartridge.Ram
import Mathlib.Algebra.Ring.Nat
import Mathlib.Data.List.Chain
import Mathlib.Data.List.Nodup

/-!
# RAM after any calls

`Ram.call` is one request for memory and `Ram.after` a sequence of them, in which requests may fail,
come again or ask for nothing. `Ram.call_cases` lists what a call can do. From it follow what every
call keeps (`Orderly.call`) and what any sequence of calls keeps (`Orderly.after`): placements
follow one another from the start of RAM to the next free address, and no label is placed twice.
What has been placed stays where it is (`Ram.keeps_after`).
-/

namespace Cartridge

namespace Ram

/-- What a request for memory returns, and RAM after it. A request that fails gives no new RAM. -/
def call (r : Ram) (l : Label) (size : Nat) : Except Error Nat × Ram :=
  match r.allocate l size with
  | .ok (address, r') => (.ok address, r')
  | .error e => (.error e, r)

/-- RAM after some requests, also failed ones. -/
def after (r : Ram) (calls : List (Label × UInt16)) : Ram :=
  calls.foldl (fun r c => (r.call c.1 c.2.toNat).2) r

/-- RAM with one more label at the next address. -/
def extend (r : Ram) (l : Label) (size : Nat) : Ram :=
  { r with placements := r.placements ++ [⟨l, r.next, size⟩], next := r.next + size }

variable {r : Ram} {l : Label} {size : Nat}

/-! ### Placed labels -/

theorem addressOf?_eq_none_iff :
    r.addressOf? l = none ↔ l ∉ r.placements.map (·.label) := by
  simp [addressOf?, List.find?_eq_none]

theorem exists_of_addressOf? {a : Nat} (h : r.addressOf? l = some a) :
    ∃ p ∈ r.placements, p.label = l ∧ p.address = a := by
  obtain ⟨p, hp, rfl⟩ := Option.map_eq_some_iff.1 h
  exact ⟨p, List.mem_of_find?_eq_some hp, by simpa using List.find?_some hp, rfl⟩

theorem addressOf?_of_mem (hnodup : (r.placements.map (·.label)).Nodup) {p : Placement}
    (hp : p ∈ r.placements) : r.addressOf? p.label = some p.address := by
  cases h : r.addressOf? p.label with
  | none => exact absurd (List.mem_map_of_mem hp) (addressOf?_eq_none_iff.1 h)
  | some a =>
    obtain ⟨q, hq, hlabel, rfl⟩ := exists_of_addressOf? h
    rw [List.inj_on_of_nodup_map hnodup hq hp hlabel]

/-! ### What a call can do -/

theorem call_of_mem (hnodup : (r.placements.map (·.label)).Nodup) {p : Placement}
    (hp : p ∈ r.placements) (size : Nat) : r.call p.label size = (.ok p.address, r) := by
  simp only [call, allocate, addressOf?_of_mem hnodup hp]

theorem call_of_room (hl : l ∉ r.placements.map (·.label))
    (hroom : r.next + size ≤ r.bounds.limit) :
    r.call l size = (.ok r.next, r.extend l size) := by
  simp only [call, allocate, addressOf?_eq_none_iff.2 hl, if_pos hroom, extend]

theorem call_of_no_room (hl : l ∉ r.placements.map (·.label))
    (hroom : r.bounds.limit < r.next + size) :
    r.call l size = (.error (.ramExhausted l.text size r.next r.bounds.limit), r) := by
  simp only [call, allocate, addressOf?_eq_none_iff.2 hl, if_neg (Nat.not_le.2 hroom)]

/-- **What a call can do**: find the label, place it, or fail. -/
theorem call_cases (r : Ram) (l : Label) (size : Nat) :
    (∃ a, r.addressOf? l = some a ∧ r.call l size = (.ok a, r)) ∨
    (r.addressOf? l = none ∧ r.next + size ≤ r.bounds.limit ∧
      r.call l size = (.ok r.next, r.extend l size)) ∨
    (r.addressOf? l = none ∧ r.bounds.limit < r.next + size ∧
      r.call l size = (.error (.ramExhausted l.text size r.next r.bounds.limit), r)) := by
  cases hl : r.addressOf? l with
  | some a => exact .inl ⟨a, rfl, by simp only [call, allocate, hl]⟩
  | none =>
    have hnew := addressOf?_eq_none_iff.1 hl
    refine .inr ?_
    rcases Nat.lt_or_ge r.bounds.limit (r.next + size) with hroom | hroom
    · exact .inr ⟨rfl, hroom, call_of_no_room hnew hroom⟩
    · exact .inl ⟨rfl, hroom, call_of_room hnew hroom⟩

/-- What every call keeps is kept by any calls. -/
theorem after_induction {P : Ram → Prop} (h : P r)
    (hcall : ∀ r l size, P r → P (r.call l size).2) (calls : List (Label × UInt16)) :
    P (r.after calls) := by
  induction calls generalizing r with
  | nil => exact h
  | cons c calls ih => exact ih (hcall r c.1 c.2.toNat h)

/-! ### What calls keep -/

/-- Placements take up RAM from its start to the next address, each label once. -/
structure Orderly (r : Ram) : Prop where
  /-- The first placement is at the start of RAM. -/
  first : ∀ p, r.placements.head? = some p → p.address = r.bounds.start
  /-- Every other one begins where the one before it ends. -/
  chained : r.placements.IsChain fun p q => q.address = p.address + p.size
  /-- The next address is the end of the last one, and the start of RAM if there is none. -/
  next : r.next = (r.placements.getLast?.map fun p => p.address + p.size).getD r.bounds.start
  /-- All of it together is what has been handed out. -/
  total : r.bounds.start + (r.placements.map (·.size)).sum = r.next
  inside : ∀ p ∈ r.placements, r.bounds.start ≤ p.address ∧ p.address + p.size ≤ r.next
  bounded : r.next ≤ r.bounds.limit
  nodup : (r.placements.map (·.label)).Nodup

theorem orderly_empty (b : RamBounds) : (empty b).Orderly :=
  ⟨nofun, .nil, rfl, rfl, nofun, Nat.le_max_right .., List.nodup_nil⟩

namespace Orderly

theorem extend (h : r.Orderly) (hl : l ∉ r.placements.map (·.label))
    (hroom : r.next + size ≤ r.bounds.limit) : (r.extend l size).Orderly := by
  have htotal := h.total
  refine ⟨fun p hp => ?_, ?_, ?_, ?_, ?_, hroom, ?_⟩
  · -- The first placement is the old one, or the new one if there is no old one.
    cases hps : r.placements with
    | nil =>
      have hnext := h.next
      simp only [Ram.extend, hps, List.nil_append, List.head?_cons, Option.some.injEq] at hp
      rw [← hp, hnext, hps]
      rfl
    | cons q qs =>
      simp only [Ram.extend, hps, List.cons_append, List.head?_cons, Option.some.injEq] at hp
      exact hp ▸ h.first q (by rw [hps]; rfl)
  · refine List.isChain_append.2 ⟨h.chained, .singleton _, fun p hp q hq => ?_⟩
    cases hq
    change r.next = p.address + p.size
    rw [h.next, Option.mem_def.1 hp]
    rfl
  · simp [Ram.extend]
  · simp only [Ram.extend, List.map_append, List.sum_append, List.map_cons, List.map_nil,
      List.sum_cons, List.sum_nil]
    omega
  · refine List.forall_mem_append.2 ⟨fun p hp => ?_, List.forall_mem_singleton.2 ?_⟩
    · obtain ⟨hstart, hend⟩ := h.inside p hp
      exact ⟨hstart, hend.trans (Nat.le_add_right ..)⟩
    · exact ⟨by simp only [Ram.extend]; omega, Nat.le_refl _⟩
  · rw [Ram.extend, List.map_append, List.nodup_append]
    refine ⟨h.nodup, List.nodup_singleton _, fun a ha b hb hab => hl ?_⟩
    cases List.mem_singleton.1 hb
    cases hab
    exact ha

/-- **One call keeps order.** -/
theorem call (h : r.Orderly) (l : Label) (size : Nat) : (r.call l size).2.Orderly := by
  obtain ⟨a, -, hcall⟩ | ⟨hnone, hroom, hcall⟩ | ⟨-, -, hcall⟩ := call_cases r l size
  · rwa [hcall]
  · rw [hcall]
    exact h.extend (addressOf?_eq_none_iff.1 hnone) hroom
  · rwa [hcall]

/-- **Any calls keep order.** -/
theorem after (h : r.Orderly) (calls : List (Label × UInt16)) : (r.after calls).Orderly :=
  after_induction h (fun _ l size h => h.call l size) calls

theorem start_le (h : r.Orderly) : r.bounds.start ≤ r.next := by
  have htotal := h.total
  omega

/-- No two placements share a byte. -/
theorem pairwise (h : r.Orderly) :
    r.placements.Pairwise fun p q => p.address + p.size ≤ q.address := by
  let Before (p q : Placement) : Prop := p.address + p.size ≤ q.address
  have htrans : Trans Before Before Before :=
    ⟨fun hpq hqs => hpq.trans ((Nat.le_add_right ..).trans hqs)⟩
  exact (h.chained.imp fun p q hpq => hpq.ge : r.placements.IsChain Before).pairwise

end Orderly

/-! ### Addresses for good -/

/-- The second RAM has the bounds and all placements of the first. -/
def Keeps (r r' : Ram) : Prop := r'.bounds = r.bounds ∧ r.placements <+: r'.placements

theorem keeps_call (r : Ram) (l : Label) (size : Nat) : r.Keeps (r.call l size).2 := by
  obtain ⟨a, -, hcall⟩ | ⟨-, -, hcall⟩ | ⟨-, -, hcall⟩ := call_cases r l size
  · exact hcall ▸ ⟨rfl, List.prefix_rfl⟩
  · exact hcall ▸ ⟨rfl, List.prefix_append ..⟩
  · exact hcall ▸ ⟨rfl, List.prefix_rfl⟩

theorem keeps_after (r : Ram) (calls : List (Label × UInt16)) : r.Keeps (r.after calls) :=
  after_induction ⟨rfl, List.prefix_rfl⟩ (fun r' l size ⟨hbounds, hplaced⟩ =>
    have ⟨hbounds', hplaced'⟩ := keeps_call r' l size
    ⟨hbounds'.trans hbounds, hplaced.trans hplaced'⟩) calls

/-- A call places its label at the address that it returns. -/
theorem placed_of_call {a : Nat} (h : (r.call l size).1 = .ok a) :
    ∃ p ∈ (r.call l size).2.placements, p.label = l ∧ p.address = a := by
  obtain ⟨b, hb, hcall⟩ | ⟨-, -, hcall⟩ | ⟨-, -, hcall⟩ := call_cases r l size
  · rw [hcall] at h ⊢
    cases h
    exact exists_of_addressOf? hb
  · rw [hcall] at h ⊢
    cases h
    exact ⟨_, List.mem_append_right _ (List.mem_singleton_self _), rfl, rfl⟩
  · rw [hcall] at h
    cases h

end Ram

end Cartridge
