import Mathlib.Data.List.Basic

/-!
# Lists without repetition

Dropping repetitions keeps each element at its first place (`pairwise_idxOf_eraseDups`). It can be
done before or after elements are left out (`eraseDups_filter`), and before or after they are
replaced by others, as long as nothing comes from two of them (`eraseDups_filterMap`,
`eraseDups_flatMap`).
-/

namespace Provenance

/-! ## What is left -/

section

variable {α : Type} [BEq α]

/-- Dropping repetitions keeps the order of what is left. -/
theorem eraseDups_sublist : ∀ as : List α, as.eraseDups.Sublist as
  | [] => .slnil
  | a :: as => by
    rw [List.eraseDups_cons]
    exact ((eraseDups_sublist _).trans List.filter_sublist).cons_cons a
termination_by as => as.length
decreasing_by exact Nat.lt_succ_of_le (List.length_filter_le ..)

/-- Dropping repetitions leaves none. -/
theorem nodup_eraseDups [LawfulBEq α] : ∀ as : List α, as.eraseDups.Nodup
  | [] => .nil
  | a :: as => by
    rw [List.eraseDups_cons, List.nodup_cons, List.mem_eraseDups]
    exact ⟨by simp, nodup_eraseDups _⟩
termination_by as => as.length
decreasing_by exact Nat.lt_succ_of_le (List.length_filter_le ..)

end

/-! ## Leaving out and replacing -/

/-- Elements from which nothing comes can be left out first. -/
theorem flatMap_filter_eq {α β : Type} {l : List α} {p : α → Bool} {f g : α → List β}
    (hkeep : ∀ a ∈ l, p a → f a = g a) (hdrop : ∀ a ∈ l, ¬ p a → g a = []) :
    (l.filter p).flatMap f = l.flatMap g := by
  induction l with
  | nil => rfl
  | cons a l ih =>
    obtain ⟨hkeepHead, hkeepTail⟩ := List.forall_mem_cons.mp hkeep
    obtain ⟨hdropHead, hdropTail⟩ := List.forall_mem_cons.mp hdrop
    rw [List.flatMap_cons, ← ih hkeepTail hdropTail]
    by_cases hp : p a
    · rw [List.filter_cons_of_pos hp, List.flatMap_cons, hkeepHead hp]
    · rw [List.filter_cons_of_neg hp, hdropHead hp, List.nil_append]

section

variable {α β : Type} [BEq α] [LawfulBEq α] [BEq β] [LawfulBEq β]

/-- Repetitions can be dropped before elements are replaced by lists of others, if nothing comes
from two elements. -/
theorem eraseDups_flatMap {f : α → List β} : ∀ {as : List α},
    (∀ a ∈ as, ∀ b ∈ as, ∀ c, c ∈ f a → c ∈ f b → a = b) →
      (as.flatMap f).eraseDups = as.eraseDups.flatMap fun a => (f a).eraseDups
  | [], _ => rfl
  | a :: as, hinj => by
    have hrest : ∀ b ∈ as.filter fun b => !b == a, ∀ c ∈ as.filter fun b => !b == a, ∀ d,
        d ∈ f b → d ∈ f c → b = c := fun b hb c hc =>
      hinj b (List.mem_cons_of_mem _ (List.mem_of_mem_filter hb)) c
        (List.mem_cons_of_mem _ (List.mem_of_mem_filter hc))
    have hremove : (as.flatMap f).removeAll (f a) = (as.filter fun b => !b == a).flatMap f := by
      rw [List.removeAll, List.filter_flatMap]
      refine (flatMap_filter_eq (fun b hb hne => ?_) fun b _ heq => ?_).symm
      · refine (List.filter_eq_self.mpr fun c hc => ?_).symm
        have hab : b ≠ a := by simpa using hne
        have hnot : c ∉ f a := fun hca =>
          hab (hinj b (List.mem_cons_of_mem _ hb) a (List.mem_cons_self ..) c hc hca)
        simpa using hnot
      · have hab : b = a := by simpa using heq
        refine List.filter_eq_nil_iff.mpr fun c hc => ?_
        simpa [← hab] using hc
    rw [List.flatMap_cons, List.eraseDups_append, hremove, eraseDups_flatMap hrest,
      List.eraseDups_cons, List.flatMap_cons]
termination_by as => as.length
decreasing_by all_goals exact Nat.lt_succ_of_le (List.length_filter_le ..)

/-- Repetitions can be dropped before elements are replaced, if different ones stay different. -/
theorem eraseDups_filterMap {f : α → Option β} {as : List α}
    (hinj : ∀ a ∈ as, ∀ b ∈ as, ∀ c, f a = some c → f b = some c → a = b) :
    (as.filterMap f).eraseDups = as.eraseDups.filterMap f := by
  rw [List.filterMap_eq_flatMap_toList, List.filterMap_eq_flatMap_toList, eraseDups_flatMap]
  · refine List.flatMap_congr fun a _ => ?_
    cases f a <;> rfl
  · intro a ha b hb c hac hbc
    exact hinj a ha b hb c (Option.mem_toList.mp hac) (Option.mem_toList.mp hbc)

/-- Repetitions can be dropped before or after elements are left out. -/
theorem eraseDups_filter (p : α → Bool) (as : List α) :
    (as.filter p).eraseDups = as.eraseDups.filter p := by
  rw [← List.filterMap_eq_filter]
  refine eraseDups_filterMap fun a _ b _ c hac hbc => ?_
  rw [Option.guard_eq_some_iff] at hac hbc
  exact hac.1.trans hbc.1.symm

/-- Repetitions can be dropped before or after different elements become different ones. -/
theorem eraseDups_map {f : α → β} {as : List α}
    (hinj : ∀ a ∈ as, ∀ b ∈ as, f a = f b → a = b) : (as.map f).eraseDups = as.eraseDups.map f := by
  rw [← List.filterMap_eq_map]
  refine eraseDups_filterMap fun a ha b hb c hac hbc => hinj a ha b hb ?_
  exact Option.some.inj (hac.trans hbc.symm)

end

/-! ## First places -/

/-- In a list without its repetitions the elements stand in the order of their first places. -/
theorem pairwise_idxOf_eraseDups {α : Type} [BEq α] [LawfulBEq α] (as : List α) :
    as.eraseDups.Pairwise fun a b => as.idxOf a < as.idxOf b := by
  induction as with
  | nil => exact .nil
  | cons c as ih =>
    have hne : ∀ b ∈ as.eraseDups.filter fun b => !b == c, c ≠ b := by
      intro b hb heq
      simp [heq] at hb
    rw [List.eraseDups_cons, eraseDups_filter, List.pairwise_cons]
    refine ⟨fun b hb => ?_, (ih.sublist List.filter_sublist).imp_of_mem fun ha hb hab => ?_⟩
    · rw [List.idxOf_cons_self, List.idxOf_cons_ne _ (hne b hb)]
      exact Nat.succ_pos _
    · rw [List.idxOf_cons_ne _ (hne _ ha), List.idxOf_cons_ne _ (hne _ hb)]
      exact Nat.succ_lt_succ hab

end Provenance
