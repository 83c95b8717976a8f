import Mathlib.Data.List.Forall2

/-!
# Operations that can fail

When a sequence of operations succeeds: `bind_eq_ok_iff` for one operation after another, and
`mapM_eq_ok_iff` for the same operation on every element of a list, each of which then has its own
result. A traversal that an error stops ends with the first error on its way (`fault?_foldl`,
`foldlM_eq_error_iff`).
-/

namespace Provenance

section

variable {ε α β : Type}

/-- In lists that are related element by element, every element on the left has a partner. -/
theorem exists_of_mem_left {R : α → β → Prop} {as : List α} {bs : List β}
    (h : List.Forall₂ R as bs) {a : α} (ha : a ∈ as) : ∃ b ∈ bs, R a b := by
  induction h with
  | nil => cases ha
  | cons hab _ ih =>
    rcases List.mem_cons.mp ha with rfl | ha
    · exact ⟨_, List.mem_cons_self .., hab⟩
    · obtain ⟨b, hb, hR⟩ := ih ha
      exact ⟨b, List.mem_cons_of_mem _ hb, hR⟩

/-- In lists that are related element by element, every element on the right has a partner. -/
theorem exists_of_mem_right {R : α → β → Prop} {as : List α} {bs : List β}
    (h : List.Forall₂ R as bs) {b : β} (hb : b ∈ bs) : ∃ a ∈ as, R a b :=
  exists_of_mem_left (List.Forall₂.flip h) hb

/-- Two operations in a row succeed exactly if the first does and the second does on its result. -/
theorem bind_eq_ok_iff {x : Except ε α} {f : α → Except ε β} {b : β} :
    (x >>= f) = .ok b ↔ ∃ a, x = .ok a ∧ f a = .ok b := by
  cases x with
  | error e => exact ⟨nofun, fun ⟨_, h, _⟩ => nomatch h⟩
  | ok a => exact ⟨fun h => ⟨a, rfl, h⟩, fun ⟨_, h, hb⟩ => by cases h; exact hb⟩

/-- Two operations in a row fail exactly if the first does or the second does on its result. -/
theorem bind_eq_error_iff {x : Except ε α} {f : α → Except ε β} {e : ε} :
    (x >>= f) = .error e ↔ x = .error e ∨ ∃ a, x = .ok a ∧ f a = .error e := by
  cases x with
  | error e' =>
    have hbind : (Except.error e' >>= f) = .error e' := rfl
    rw [hbind]
    exact ⟨fun h => .inl (by cases h; rfl), fun h => by rcases h with h | ⟨_, h, _⟩ <;> cases h; rfl⟩
  | ok a =>
    exact ⟨fun h => .inr ⟨a, rfl, h⟩, fun h => by rcases h with h | ⟨_, h, he⟩ <;> cases h; exact he⟩

/-- Two operations in a row that end well have their results. -/
theorem exists_of_isOk_bind {x : Except ε α} {f : α → Except ε β} (h : (x.bind f).isOk) :
    ∃ a b, x = .ok a ∧ f a = .ok b := by
  cases hx : x.bind f with
  | error e =>
    rw [hx] at h
    cases h
  | ok b =>
    obtain ⟨a, ha, hb⟩ := bind_eq_ok_iff.mp hx
    exact ⟨a, b, ha, hb⟩

/-- An operation succeeds on every element of a list exactly if each element has its result. -/
theorem mapM_eq_ok_iff {f : α → Except ε β} {as : List α} {bs : List β} :
    as.mapM f = .ok bs ↔ List.Forall₂ (fun a b => f a = .ok b) as bs := by
  induction as generalizing bs with
  | nil =>
    rw [List.mapM_nil, List.forall₂_nil_left_iff]
    exact ⟨fun h => (Except.ok.inj h).symm, fun h => h ▸ rfl⟩
  | cons a as ih =>
    rw [List.mapM_cons, bind_eq_ok_iff, List.forall₂_cons_left_iff]
    refine exists_congr fun b => ?_
    rw [bind_eq_ok_iff]
    constructor
    · rintro ⟨hb, bs', hbs', h⟩
      exact ⟨bs', hb, ih.mp hbs', (Except.ok.inj h).symm⟩
    · rintro ⟨bs', hb, hbs', rfl⟩
      exact ⟨hb, bs', ih.mpr hbs', rfl⟩

/-- An operation that succeeds on each element of a list succeeds on the list. -/
theorem exists_mapM_eq_ok {f : α → Except ε β} {as : List α} (h : ∀ a ∈ as, ∃ b, f a = .ok b) :
    ∃ bs, as.mapM f = .ok bs := by
  simp only [mapM_eq_ok_iff]
  induction as with
  | nil => exact ⟨[], .nil⟩
  | cons a as ih =>
    obtain ⟨b, hb⟩ := h a (List.mem_cons_self ..)
    obtain ⟨bs, hbs⟩ := ih fun a ha => h a (List.mem_cons_of_mem _ ha)
    exact ⟨b :: bs, .cons hb hbs⟩

/-- A traversal over the lists of some elements is a traversal of traversals. -/
theorem foldlM_flatMap {σ : Type} {f : σ → β → Except ε σ} {g : α → List β} (as : List α) (s : σ) :
    (as.flatMap g).foldlM f s = as.foldlM (fun s a => (g a).foldlM f s) s := by
  induction as generalizing s with
  | nil => rfl
  | cons a as ih => simp only [List.flatMap_cons, List.foldlM_append, ih, List.foldlM_cons]

section

variable {σ : Type} {f : σ → α → Except ε σ} {Passes : α → Prop} {next : σ → α → σ}

/-- A traversal that elements let pass whatever the state goes through exactly if all of them do. -/
theorem foldlM_eq_ok_iff (hok : ∀ s a s', f s a = .ok s' ↔ Passes a ∧ s' = next s a) {as : List α}
    {s s' : σ} : as.foldlM f s = .ok s' ↔ (∀ a ∈ as, Passes a) ∧ s' = as.foldl next s := by
  induction as generalizing s with
  | nil => simp [pure, Except.pure, eq_comm]
  | cons a as ih =>
    rw [List.foldlM_cons, bind_eq_ok_iff, List.forall_mem_cons, List.foldl_cons]
    simp only [hok, ih]
    constructor
    · rintro ⟨_, ⟨ha, rfl⟩, has, hs'⟩
      exact ⟨⟨ha, has⟩, hs'⟩
    · rintro ⟨⟨ha, has⟩, hs'⟩
      exact ⟨_, ⟨ha, rfl⟩, has, hs'⟩

/-- Such a traversal fails with the error of the first element that does not let it pass. -/
theorem foldlM_eq_error_iff {Stops : α → ε → Prop}
    (hok : ∀ s a s', f s a = .ok s' ↔ Passes a ∧ s' = next s a)
    (herror : ∀ s a e, f s a = .error e ↔ Stops a e) {as : List α} {s : σ} {e : ε} :
    as.foldlM f s = .error e ↔
      ∃ before a after, as = before ++ a :: after ∧ (∀ b ∈ before, Passes b) ∧ Stops a e := by
  induction as generalizing s with
  | nil => simp [pure, Except.pure]
  | cons a as ih =>
    rw [List.foldlM_cons]
    cases hfirst : f s a with
    | error e' =>
      have hstops := (herror s a e').mp hfirst
      constructor
      · intro h
        cases h
        exact ⟨[], a, as, rfl, List.forall_mem_nil _, hstops⟩
      · rintro ⟨before, b, after, heq, hpasses, hb⟩
        cases before with
        | nil =>
          cases heq
          exact hfirst.symm.trans ((herror s a e).mpr hb)
        | cons c before =>
          cases heq
          have hpass := (hok s a _).mpr ⟨hpasses a (List.mem_cons_self ..), rfl⟩
          cases hfirst.symm.trans hpass
    | ok s' =>
      have hpass := ((hok s a s').mp hfirst).1
      refine ih.trans ⟨?_, ?_⟩
      · rintro ⟨before, b, after, rfl, hpasses, hb⟩
        exact ⟨a :: before, b, after, rfl, List.forall_mem_cons.mpr ⟨hpass, hpasses⟩, hb⟩
      · rintro ⟨before, b, after, heq, hpasses, hb⟩
        cases before with
        | nil =>
          cases heq
          cases hfirst.symm.trans ((herror s a e).mpr hb)
        | cons c before =>
          cases heq
          exact ⟨before, b, after, rfl, (List.forall_mem_cons.mp hpasses).2, hb⟩

end

/-- The same as `mapM_eq_ok_iff` for operations that have a result or none. -/
theorem mapM_eq_some_iff {f : α → Option β} {as : List α} {bs : List β} :
    as.mapM f = some bs ↔ List.Forall₂ (fun a b => f a = some b) as bs := by
  induction as generalizing bs with
  | nil =>
    rw [List.mapM_nil, List.forall₂_nil_left_iff]
    exact ⟨fun h => (Option.some.inj h).symm, fun h => h ▸ rfl⟩
  | cons a as ih =>
    rw [List.mapM_cons, Option.bind_eq_bind, Option.bind_eq_some_iff, List.forall₂_cons_left_iff]
    refine exists_congr fun b => ?_
    rw [Option.bind_eq_bind, Option.bind_eq_some_iff]
    constructor
    · rintro ⟨hb, bs', hbs', h⟩
      exact ⟨bs', hb, ih.mp hbs', (Option.some.inj h).symm⟩
    · rintro ⟨bs', hb, hbs', rfl⟩
      exact ⟨hb, bs', ih.mpr hbs', rfl⟩

/-- An operation that has a result on each element of a list has one on the list. -/
theorem exists_mapM_eq_some {f : α → Option β} {as : List α} (h : ∀ a ∈ as, ∃ b, f a = some b) :
    ∃ bs, as.mapM f = some bs := by
  simp only [mapM_eq_some_iff]
  induction as with
  | nil => exact ⟨[], .nil⟩
  | cons a as ih =>
    obtain ⟨b, hb⟩ := h a (List.mem_cons_self ..)
    obtain ⟨bs, hbs⟩ := ih fun a ha => h a (List.mem_cons_of_mem _ ha)
    exact ⟨b :: bs, .cons hb hbs⟩

/-- The results of an operation on the elements of a list. -/
theorem mem_iff_of_mapM_eq_some {f : α → Option β} {as : List α} {bs : List β}
    (h : as.mapM f = some bs) {b : β} : b ∈ bs ↔ ∃ a ∈ as, f a = some b := by
  have hresults := mapM_eq_some_iff.mp h
  refine ⟨exists_of_mem_right hresults, fun hb => ?_⟩
  obtain ⟨a, ha, hab⟩ := hb
  obtain ⟨b', hb', hab'⟩ := exists_of_mem_left hresults ha
  cases Option.some.inj (hab.symm.trans hab')
  exact hb'

/-- If each element of a list adds its error to a state that has none, the list adds the first of
the errors. -/
theorem fault?_foldl {σ : Type} (fault? : σ → Option ε) {f : σ → α → σ} {error? : α → Option ε}
    {as : List α} (h : ∀ s, ∀ a ∈ as, fault? (f s a) = (fault? s).or (error? a)) (s : σ) :
    fault? (as.foldl f s) = (fault? s).or (as.findSome? error?) := by
  induction as generalizing s with
  | nil => exact Option.or_none.symm
  | cons a as ih =>
    have hfirst : (a :: as).findSome? error? = (error? a).or (as.findSome? error?) := by
      rw [List.findSome?_cons]
      cases error? a <;> rfl
    rw [List.foldl_cons, ih fun s b hb => h s b (List.mem_cons_of_mem _ hb),
      h s a (List.mem_cons_self ..), hfirst, Option.or_assoc]

end

end Provenance
