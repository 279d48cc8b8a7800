import Mathlib.Data.List.Induction
import Mathlib.Data.List.Nodup

/-!
# Order of first occurrence

`eraseDups` keeps the first occurrence of every element. What is said here is how that goes together
with appending lists and with filters and maps.
-/

namespace Cartridge

variable {α β : Type} [BEq α] [LawfulBEq α] [BEq β] [LawfulBEq β]

theorem nodup_eraseDups (as : List α) : as.eraseDups.Nodup := by
  induction hn : as.length using Nat.strongRecOn generalizing as with
  | ind n ih =>
    cases as with
    | nil => exact List.nodup_nil
    | cons a as =>
      rw [List.eraseDups_cons, List.nodup_cons, List.mem_eraseDups]
      refine ⟨by simp, ih _ ?_ _ rfl⟩
      rw [← hn]
      exact Nat.lt_succ_of_le (List.length_filter_le _ _)

theorem eraseDups_of_nodup {as : List α} (h : as.Nodup) : as.eraseDups = as := by
  induction as with
  | nil => rfl
  | cons a as ih =>
    obtain ⟨ha, has⟩ := List.nodup_cons.1 h
    have hkeep : (as.filter fun b => !b == a) = as := by
      refine List.filter_eq_self.2 fun b hb => ?_
      have hne : b ≠ a := fun hba => ha (hba ▸ hb)
      simp [hne]
    rw [List.eraseDups_cons, hkeep, ih has]

/-- A map that keeps elements different keeps their order of first occurrence. -/
theorem filterMap_eraseDups {f : α → Option β}
    (hf : ∀ a a' b, f a = some b → f a' = some b → a = a') (as : List α) :
    as.eraseDups.filterMap f = (as.filterMap f).eraseDups := by
  induction hn : as.length using Nat.strongRecOn generalizing as with
  | ind n ih =>
    cases as with
    | nil => rfl
    | cons a as =>
      subst hn
      have hlt : (as.filter fun b => !b == a).length < (a :: as).length :=
        Nat.lt_succ_of_le (List.length_filter_le _ _)
      rw [List.eraseDups_cons, List.filterMap_cons, List.filterMap_cons, ih _ hlt _ rfl,
        List.filterMap_filter]
      cases hfa : f a with
      | none =>
        -- Whatever is equal to `a` is dropped by the map.
        refine congrArg List.eraseDups (List.filterMap_congr fun b _ => ?_)
        by_cases hb : b = a
        · simp [hb, hfa]
        · simp [hb]
      | some c =>
        have himage : ∀ b ∈ as, (if (!b == a) = true then f b else none) =
            (f b).filter fun x => !x == c := by
          intro b _
          by_cases hb : b = a
          · simp [hb, hfa, Option.filter_some]
          · cases hfb : f b with
            | none => simp [hb]
            | some d =>
              have hne : d ≠ c := fun hdc => hb (hf b a c (hdc ▸ hfb) hfa)
              simp [hb, hne, Option.filter_some]
        rw [List.eraseDups_cons, List.filterMap_congr himage, List.filter_filterMap]

theorem filter_eraseDups (p : α → Bool) (as : List α) :
    as.eraseDups.filter p = (as.filter p).eraseDups := by
  rw [← List.filterMap_eq_filter]
  refine filterMap_eraseDups (fun a a' b ha ha' => ?_) as
  exact (Option.guard_eq_some_iff.1 ha).1.trans (Option.guard_eq_some_iff.1 ha').1.symm

theorem removeAll_congr {as as' : List α} (h : as.eraseDups = as'.eraseDups) (bs : List α) :
    bs.removeAll as = bs.removeAll as' := by
  refine List.filter_congr fun b _ => ?_
  have hmem : b ∈ as ↔ b ∈ as' := by rw [← List.mem_eraseDups, h, List.mem_eraseDups]
  simp [hmem]

/-- What has the same elements in the same order of first occurrence can be put in place. -/
theorem eraseDups_append_congr {as as' bs bs' : List α} (h : as.eraseDups = as'.eraseDups)
    (h' : bs.eraseDups = bs'.eraseDups) : (as ++ bs).eraseDups = (as' ++ bs').eraseDups := by
  rw [List.eraseDups_append, List.eraseDups_append, h, removeAll_congr h]
  unfold List.removeAll
  rw [← filter_eraseDups, ← filter_eraseDups, h']

/-- Nothing new at the end changes nothing. -/
theorem eraseDups_append_subset {as bs : List α} (h : bs ⊆ as) :
    (as ++ bs).eraseDups = as.eraseDups := by
  have hnone : bs.removeAll as = [] := List.filter_eq_nil_iff.2 fun b hb => by simp [h hb]
  rw [List.eraseDups_append, hnone, List.eraseDups_nil, List.append_nil]

theorem eraseDups_concat_of_not_mem {as : List α} {a : α} (h : a ∉ as) :
    (as ++ [a]).eraseDups = as.eraseDups ++ [a] := by
  have hnew : [a].removeAll as = [a] := by simp [List.removeAll, h]
  rw [List.eraseDups_append, hnew]
  rfl

theorem eraseDups_flatMap_congr {γ : Type} {f g : γ → List α}
    (h : ∀ c, (f c).eraseDups = (g c).eraseDups) (cs : List γ) :
    (cs.flatMap f).eraseDups = (cs.flatMap g).eraseDups := by
  induction cs with
  | nil => rfl
  | cons c cs ih => exact eraseDups_append_congr (h c) ih

/-- What occurs again adds nothing to the image. -/
theorem eraseDups_filterMap_eraseDups (f : α → Option β) (as : List α) :
    (as.eraseDups.filterMap f).eraseDups = (as.filterMap f).eraseDups := by
  induction as using List.reverseRecOn with
  | nil => rfl
  | append_singleton as a ih =>
    by_cases ha : a ∈ as
    · have hsub : [a].filterMap f ⊆ as.filterMap f := by
        intro b hb
        obtain ⟨a', ha', hb⟩ := List.mem_filterMap.1 hb
        exact List.mem_filterMap.2 ⟨a, ha, List.mem_singleton.1 ha' ▸ hb⟩
      rw [eraseDups_append_subset (List.cons_subset.2 ⟨ha, List.nil_subset as⟩), ih,
        List.filterMap_append, eraseDups_append_subset hsub]
    · rw [eraseDups_concat_of_not_mem ha, List.filterMap_append, List.filterMap_append]
      exact eraseDups_append_congr ih rfl

end Cartridge
