import Mathlib.Data.List.Basic
import Mathlib.Data.List.Induction
import Mathlib.Data.List.Nodup
import Provenance.Path.Basic
import Std.Data.TreeMap.Lemmas

/-!
# Keys tell paths apart

A label can be read back (`label_injective`), no label contains the separator, and so a path can be
read back from its key: `Path.key_injective`. A set of paths, which compares keys, is therefore a
set of lists of offsets: what it holds after some insertions is what was inserted, each path once
and in the order of its first insertion (`PathSet.toList_foldl_insert`).
-/

namespace Provenance

/-! ## Labels -/

namespace Text

/-- The number that an upper-case hexadecimal digit stands for. -/
def hexValue (c : Char) : Nat :=
  if c.isDigit then c.toNat - 48 else c.toNat - 55

/-- The number that upper-case hexadecimal digits stand for when they follow those of `n`. -/
def hexNumber (n : Nat) (digits : List Char) : Nat :=
  digits.foldl (fun n c => 16 * n + hexValue c) n

/-- Digits can be read in two parts. -/
theorem hexNumber_append (n : Nat) (first second : List Char) :
    hexNumber n (first ++ second) = hexNumber (hexNumber n first) second :=
  List.foldl_append ..

/-- A digit stands for its value. -/
theorem hexValue_upperDigit {d : Nat} (h : d < 16) : hexValue (upperDigit d.digitChar) = d := by
  decide +revert

/-- The digits of a number stand for it. -/
theorem hexNumber_toDigits (n : Nat) :
    hexNumber 0 ((Nat.toDigits 16 n).map upperDigit) = n := by
  induction n using Nat.base_induction 16 (by decide) with
  | single d hd =>
    simp [Nat.toDigits_of_lt_base hd, hexNumber, hexValue_upperDigit hd]
  | digit m d hd hm ih =>
    rw [← Nat.toDigits_append_toDigits (by decide) hm hd, List.map_append, hexNumber_append, ih,
      Nat.toDigits_of_lt_base hd]
    simp [hexNumber, hexValue_upperDigit hd]

/-- Leading zeros do not change a number. -/
theorem hexNumber_leftpad (width : Nat) (digits : List Char) :
    hexNumber 0 (digits.leftpad width '0') = hexNumber 0 digits := by
  have hzero : ∀ k, hexNumber 0 (List.replicate k '0') = 0 := by
    intro k
    induction k with
    | zero => rfl
    | succ k ih => exact ih
  rw [List.leftpad, hexNumber_append, hzero]

/-- Padded hexadecimal text can be read back. -/
theorem hex_injective (width : Nat) : Function.Injective (hex width) := by
  intro m n h
  have hnumber := congrArg (fun s => hexNumber 0 s.toList) h
  simp only [hex, String.toList_ofList] at hnumber
  rwa [hexNumber_leftpad, hexNumber_leftpad, hexNumber_toDigits, hexNumber_toDigits] at hnumber

/-- The digits of a number in base sixteen are digits of that base. -/
theorem exists_of_mem_toDigits (n : Nat) :
    ∀ c ∈ Nat.toDigits 16 n, ∃ d, d < 16 ∧ c = d.digitChar := by
  induction n using Nat.base_induction 16 (by decide) with
  | single d hd =>
    rw [Nat.toDigits_of_lt_base hd]
    exact fun c hc => ⟨d, hd, List.mem_singleton.mp hc⟩
  | digit m d hd hm ih =>
    rw [← Nat.toDigits_append_toDigits (by decide) hm hd, Nat.toDigits_of_lt_base hd]
    intro c hc
    rcases List.mem_append.mp hc with hc | hc
    · exact ih c hc
    · exact ⟨d, hd, List.mem_singleton.mp hc⟩

/-- Padded hexadecimal text has no equals sign. -/
theorem equals_notMem_hex (width n : Nat) : '=' ∉ (hex width n).toList := by
  intro h
  rw [hex, String.toList_ofList, List.leftpad, List.mem_append, List.mem_map] at h
  rcases h with h | ⟨c, hc, heq⟩
  · exact absurd (List.eq_of_mem_replicate h) (by decide)
  · obtain ⟨d, hd, rfl⟩ := exists_of_mem_toDigits n c hc
    have hne : ∀ d < 16, upperDigit (Nat.digitChar d) ≠ '=' := by decide
    exact hne d hd heq

end Text

/-- Different offsets have different labels. -/
theorem label_injective : Function.Injective label := by
  intro m n h
  have htext := congrArg String.toList h
  simp only [label, String.toList_append] at htext
  exact Text.hex_injective 4 (String.toList_inj.mp (List.append_cancel_left htext))

/-- A label has no equals sign, with which the separator of a key starts. -/
theorem equals_notMem_label (offset : Nat) : '=' ∉ (label offset).toList := by
  rw [label, String.toList_append, List.mem_append]
  exact not_or.mpr ⟨by decide, Text.equals_notMem_hex 4 offset⟩

/-! ## Keys -/

/-- A separator can be moved to the front of the texts that follow it, up to its first sign. -/
theorem intercalate_cons_eq (c : Char) (sep l : List Char) (rest : List (List Char)) :
    (c :: sep).intercalate (l :: rest) = [c].intercalate (l :: rest.map (sep ++ ·)) := by
  induction rest generalizing l with
  | nil => simp
  | cons m rest ih =>
    rw [List.map_cons, List.intercalate_cons_cons, List.intercalate_cons_cons, ih]
    cases rest <;> simp

/-- Texts can be read back from their join if no text has the first sign of the separator and the
separator has it only once. -/
theorem intercalate_inj {c : Char} {sep l m : List Char} {rest rest' : List (List Char)}
    (hsep : c ∉ sep) (hl : ∀ x ∈ l :: rest, c ∉ x) (hm : ∀ x ∈ m :: rest', c ∉ x)
    (h : (c :: sep).intercalate (l :: rest) = (c :: sep).intercalate (m :: rest')) :
    l = m ∧ rest = rest' := by
  have free : ∀ {l : List Char} {rest : List (List Char)}, (∀ x ∈ l :: rest, c ∉ x) →
      ∀ x ∈ l :: rest.map (sep ++ ·), c ∉ x := by
    intro l rest hl x hx
    rcases List.mem_cons.mp hx with rfl | hx
    · exact hl _ (List.mem_cons_self ..)
    · obtain ⟨y, hy, rfl⟩ := List.mem_map.mp hx
      exact fun hc => (List.mem_append.mp hc).elim hsep (hl y (List.mem_cons_of_mem _ hy))
  rw [intercalate_cons_eq c sep l, intercalate_cons_eq c sep m] at h
  have hsplit := congrArg (List.splitOn c) h
  rw [List.splitOn_intercalate c (free hl) (List.cons_ne_nil _ _),
    List.splitOn_intercalate c (free hm) (List.cons_ne_nil _ _), List.cons.injEq] at hsplit
  exact ⟨hsplit.1, List.map_injective_iff.mpr (List.append_right_injective sep) hsplit.2⟩

/-- Different paths have different keys. -/
theorem Path.key_injective : Function.Injective Path.key := by
  rintro ⟨first⟩ ⟨second⟩ h
  have htext := congrArg String.toList h
  simp only [key, String.toList_intercalate, List.map_map] at htext
  have free : ∀ starts : List Nat, ∀ x ∈ starts.map (String.toList ∘ label), '=' ∉ x := by
    intro starts x hx
    obtain ⟨offset, -, rfl⟩ := List.mem_map.mp hx
    exact equals_notMem_label offset
  have hinj : Function.Injective (String.toList ∘ label) :=
    fun _ _ hlabel => label_injective (String.toList_inj.mp hlabel)
  cases first with
  | nil =>
    cases second with
    | nil => rfl
    | cons n rest' => cases rest' <;> simp [label] at htext
  | cons m rest =>
    cases second with
    | nil => cases rest <;> simp [label] at htext
    | cons n rest' =>
      obtain ⟨hhead, htail⟩ :=
        intercalate_inj (by decide) (free (m :: rest)) (free (n :: rest')) htext
      rw [hinj hhead, List.map_injective_iff.mpr hinj htail]

/-! ## Sets of paths -/

namespace PathSet

/-- A set knows the keys of its paths and no others. -/
def WellFormed (s : PathSet) : Prop :=
  ∀ key, s.contains key ↔ ∃ p ∈ s.latest, p.key = key

/-- The empty set is well formed. -/
theorem wellFormed_empty : WellFormed empty := by
  simp [WellFormed, empty, contains]

/-- A set that is well formed has the key of a path exactly if it has the path. -/
theorem WellFormed.contains_key {s : PathSet} (h : s.WellFormed) {p : Path} :
    s.contains p.key ↔ p ∈ s.latest := by
  rw [h p.key]
  exact ⟨fun ⟨q, hq, hkey⟩ => Path.key_injective hkey ▸ hq, fun hp => ⟨p, hp, rfl⟩⟩

/-- Inserting a path adds it as the latest, unless it is there. -/
theorem WellFormed.latest_insert {s : PathSet} (h : s.WellFormed) (p : Path) :
    (s.insert p).latest = if p ∈ s.latest then s.latest else p :: s.latest := by
  unfold insert
  by_cases hp : p ∈ s.latest
  · rw [if_pos (h.contains_key.mpr hp), if_pos hp]
  · rw [if_neg (mt h.contains_key.mp hp), if_neg hp]

/-- Inserting keeps a set well formed. -/
theorem WellFormed.insert {s : PathSet} (h : s.WellFormed) (p : Path) :
    (s.insert p).WellFormed := by
  intro key
  unfold PathSet.insert
  by_cases hp : s.contains p.key
  · rw [if_pos hp]
    exact h key
  · rw [if_neg hp]
    have := h key
    simp only [contains, Std.TreeMap.contains_insert, Bool.or_eq_true, beq_iff_eq,
      Std.LawfulEqCmp.compare_eq_iff_eq] at this ⊢
    simp only [this, List.mem_cons, exists_eq_or_imp]

/-- After some insertions a set holds what was inserted, each path once and in the order of its
first insertion. -/
theorem toList_foldl_insert (ps : List Path) :
    (ps.foldl insert empty).toList = ps.eraseDups ∧ (ps.foldl insert empty).WellFormed := by
  induction ps using List.reverseRecOn with
  | nil => exact ⟨rfl, wellFormed_empty⟩
  | append_singleton ps p ih =>
    obtain ⟨hlist, hwf⟩ := ih
    rw [List.foldl_append, List.foldl_cons, List.foldl_nil]
    refine ⟨?_, hwf.insert p⟩
    have hmem : p ∈ (ps.foldl insert empty).latest ↔ p ∈ ps := by
      rw [← List.mem_reverse, ← toList, hlist, List.mem_eraseDups]
    rw [toList, hwf.latest_insert, List.eraseDups_append]
    by_cases hp : p ∈ ps
    · rw [if_pos (hmem.mpr hp), ← toList, hlist]
      simp [List.removeAll, hp]
    · rw [if_neg (mt hmem.mp hp), List.reverse_cons, ← toList, hlist]
      simp [List.removeAll, hp, List.eraseDups_cons]

/-- After some insertions a set counts the paths that it lists. -/
theorem size_foldl_insert (ps : List Path) :
    (ps.foldl insert empty).size = (ps.foldl insert empty).toList.length := by
  rw [toList, List.length_reverse]
  induction ps using List.reverseRecOn with
  | nil => rfl
  | append_singleton ps p ih =>
    rw [List.foldl_append, List.foldl_cons, List.foldl_nil]
    generalize ps.foldl insert empty = s at ih ⊢
    unfold insert
    by_cases hp : s.contains p.key
    · rw [if_pos hp]
      exact ih
    · rw [if_neg hp, size, Std.TreeMap.size_insert, if_neg (by simpa [contains] using hp),
        List.length_cons]
      exact congrArg Nat.succ ih

end PathSet

end Provenance
