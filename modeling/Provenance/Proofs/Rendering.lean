import Mathlib.Data.List.Perm.Subperm
import Mathlib.Logic.Relation
import Provenance.Expression
import Provenance.Proofs.Edges

/-!
# The loop writes the expression

`expression` says by recursion what the expression at an offset is. The loop over frames writes just
that, and it leaves the visited offsets as they were (`View.run_next`): the frames on the stack are
the calls of the recursion that are under way, and going through the producers and positions of one
frame writes its arguments one after the other (`View.run_producers`, `View.run_positions`). No
offset has two frames at a time (`View.Distinct`), so there are at most as many frames as
instructions.
-/

namespace Provenance

/-! ## Expressions by recursion -/

/-- The instruction at an offset. Of several the last counts. -/
def lastAt (instructions : List Instruction) (offset : Nat) : Option Instruction :=
  instructions.reverse.find? (·.offset = offset)

/-- The instruction at an offset is one of the instructions and stands there. -/
theorem mem_of_lastAt {instructions : List Instruction} {offset : Nat} {i : Instruction}
    (h : lastAt instructions offset = some i) : i ∈ instructions ∧ i.offset = offset :=
  ⟨List.mem_reverse.mp (List.mem_of_find?_eq_some h), by simpa using List.find?_some h⟩

/-- An instruction that has not been visited is used up when it is. -/
theorem countP_insert_lt {instructions : List Instruction} {visited : Offsets} {offset : Nat}
    {i : Instruction} (h : lastAt instructions offset = some i) (hnew : offset ∉ visited) :
    instructions.countP (·.offset ∉ visited.insert offset) <
      instructions.countP (·.offset ∉ visited) := by
  obtain ⟨hmem, rfl⟩ := mem_of_lastAt h
  refine View.countP_lt_countP ?_ ?_ ?_ hmem
  · simp only [decide_eq_true_eq, Std.ExtTreeSet.mem_insert]
    exact fun j hj hmem => hj (.inr hmem)
  · simpa using hnew
  · simp

section

variable (instructions : List Instruction) (edges : List Edge) (resolver : Resolver)

/-- The expression at an offset, inside the expressions of the visited offsets. -/
def expression (visited : Offsets) (offset : Nat) : String :=
  match _h : lastAt instructions offset with
  | none => "/* unknown */"
  | some i =>
    if offset ∈ visited then "/* recursive " ++ label offset ++ " */"
    else if recordedPositions edges offset = ∅ then i.text resolver
    else
      let input (position : Nat) : String :=
        " or ".intercalate (((recordedProducers edges offset position).sort (· ≤ ·)).map
          fun producer => expression (visited.insert offset) producer)
      i.text resolver ++ "(" ++
        ", ".intercalate (((recordedPositions edges offset).sort (· ≥ ·)).map input) ++ ")"
termination_by instructions.countP (·.offset ∉ visited)
decreasing_by exact countP_insert_lt _h ‹_›

end

/-- Sorting the other way round. -/
theorem reverse_sort (s : Finset Nat) : (s.sort (· ≤ ·)).reverse = s.sort (· ≥ ·) := by
  have hnodup : (s.sort (· ≤ ·)).reverse.Nodup := List.nodup_reverse.mpr (s.sort_nodup _)
  have hsort := (List.toFinset_sort (· ≥ ·) hnodup).mpr
    (List.pairwise_reverse.mpr (s.pairwise_sort (· ≤ ·)))
  rw [List.toFinset_reverse, Finset.sort_toFinset] at hsort
  exact hsort.symm

namespace View

/-! ## What the view of a list knows -/

/-- The view of a list knows the last instruction at each offset. -/
theorem instruction?_ofList (instructions : List Instruction) (edges : EdgeSet)
    (resolver : Resolver) (offset : Nat) :
    (ofList instructions edges resolver).instruction? offset = lastAt instructions offset := by
  have hfold (known : Std.TreeMap Nat Instruction) :
      (instructions.foldl (fun known i => known.insert i.offset i) known)[offset]? =
        (lastAt instructions offset).or known[offset]? := by
    induction instructions generalizing known with
    | nil => rfl
    | cons i rest ih =>
      rw [List.foldl_cons, ih, lastAt, lastAt, List.reverse_cons, List.find?_append,
        Option.or_assoc, Std.TreeMap.getElem?_insert]
      congr 1
      by_cases h : i.offset = offset <;> simp [h]
  simpa [instruction?, ofList] using hfold ∅

/-! ## Turns of the loop -/

section

variable {v : View}

/-- Running the loop makes a turn and goes on. -/
theorem run_eq (m : Machine) :
    v.run m = match v.step m with
      | .inl result => result
      | .inr m' => v.run m' := by
  rw [run]
  split <;> simp_all

/-- The loop goes on with the state after a turn. -/
theorem run_of_step {m m' : Machine} (h : v.step m = .inr m') : v.run m = v.run m' := by
  rw [run_eq, h]

/-- States with the same next turn are run in the same way. -/
theorem run_congr {m m' : Machine} (h : v.step m = v.step m') : v.run m = v.run m' := by
  rw [run_eq, h, ← run_eq]

/-- The arguments of a frame when the alternatives of the current position are written. -/
def closed (alternatives arguments : List String) : List String :=
  if alternatives.isEmpty then arguments
  else " or ".intercalate alternatives.reverse :: arguments

section

variable (offset : Nat) (leaf : String) (positions producers : List Nat)
  (alternatives arguments : List String) (frames : List Frame) (visited : Offsets)
  (finished? : Option String)

/-- A turn goes to the next producer of a frame. -/
theorem step_producer (producer : Nat) :
    v.step ⟨⟨offset, leaf, positions, producer :: producers, alternatives, arguments⟩ :: frames,
        visited, none, finished?⟩ =
      .inr ⟨⟨offset, leaf, positions, producers, finished?.toList ++ alternatives, arguments⟩ ::
        frames, visited, some producer, none⟩ := rfl

/-- When the producers are written, a turn goes to the next position of a frame. -/
theorem step_position (position : Nat) :
    v.step ⟨⟨offset, leaf, position :: positions, [], alternatives, arguments⟩ :: frames, visited,
        none, none⟩ =
      .inr ⟨⟨offset, leaf, positions, v.edges.producers offset position, [],
        closed alternatives arguments⟩ :: frames, visited, none, none⟩ := rfl

/-- When the positions are written, a turn leaves the frame. -/
theorem step_leave :
    v.step ⟨⟨offset, leaf, [], [], alternatives, arguments⟩ :: frames, visited, none, none⟩ =
      .inr ⟨frames, visited.erase offset, none, some (leaf ++ "(" ++
        ", ".intercalate (closed alternatives arguments).reverse ++ ")")⟩ := rfl

end

variable {visited : Offsets} {text : Nat → String}

/-- If every producer is written as its text, the loop writes the producers of a frame one after the
other. -/
theorem run_producers (hnext : ∀ frames producer, v.run ⟨frames, visited, some producer, none⟩ =
      v.run ⟨frames, visited, none, some (text producer)⟩)
    (offset : Nat) (leaf : String) (positions : List Nat) (arguments : List String)
    (frames : List Frame) (producers : List Nat) (alternatives : List String)
    (finished? : Option String) :
    v.run ⟨⟨offset, leaf, positions, producers, alternatives, arguments⟩ :: frames, visited, none,
        finished?⟩ =
      v.run ⟨⟨offset, leaf, positions, [], (producers.map text).reverse ++
        (finished?.toList ++ alternatives), arguments⟩ :: frames, visited, none, none⟩ := by
  induction producers generalizing alternatives finished? with
  | nil => exact run_congr rfl
  | cons producer producers ih =>
    rw [run_of_step (step_producer ..), hnext, ih]
    simp

/-- If every producer is written as its text, the loop writes the positions of a frame one after the
other and then leaves the frame. -/
theorem run_positions (hnext : ∀ frames producer, v.run ⟨frames, visited, some producer, none⟩ =
      v.run ⟨frames, visited, none, some (text producer)⟩)
    (offset : Nat) (leaf : String) (frames : List Frame) {positions : List Nat}
    (hpositions : ∀ position ∈ positions, v.edges.producers offset position ≠ [])
    (alternatives arguments : List String) :
    v.run ⟨⟨offset, leaf, positions, [], alternatives, arguments⟩ :: frames, visited, none, none⟩ =
      v.run ⟨frames, visited.erase offset, none, some (leaf ++ "(" ++
        ", ".intercalate ((closed alternatives arguments).reverse ++ positions.map fun position =>
          " or ".intercalate ((v.edges.producers offset position).map text)) ++ ")")⟩ := by
  induction positions generalizing alternatives arguments with
  | nil =>
    rw [run_of_step (step_leave ..), List.map_nil, List.append_nil]
  | cons position positions ih =>
    obtain ⟨hposition, hrest⟩ := List.forall_mem_cons.mp hpositions
    have hclosed : closed ((v.edges.producers offset position).map text).reverse
        (closed alternatives arguments) =
        " or ".intercalate ((v.edges.producers offset position).map text) ::
          closed alternatives arguments := by
      rw [closed, if_neg (by simpa using hposition), List.reverse_reverse]
    rw [run_of_step (step_position ..), run_producers hnext, Option.toList_none, List.append_nil,
      List.append_nil, ih hrest, hclosed]
    simp

end

/-! ## The loop and the recursion -/

section

variable (instructions : List Instruction) (edges : List Edge) (resolver : Resolver)

/-- The view of a method with instructions and recorded edges. -/
abbrev recorded : View :=
  ofList instructions (EdgeSet.empty.insertAll edges) resolver

/-- The positions of an instruction are listed in ascending order. -/
theorem positions_recorded (offset : Nat) :
    (recorded instructions edges resolver).edges.positions offset =
      (recordedPositions edges offset).sort (· ≤ ·) :=
  EdgeSet.positions_insertAll ..

/-- The producers at a position are listed in ascending order. -/
theorem producers_recorded (offset position : Nat) :
    (recorded instructions edges resolver).edges.producers offset position =
      (recordedProducers edges offset position).sort (· ≤ ·) :=
  EdgeSet.producers_insertAll ..

/-- There are positions exactly if there are edges. -/
theorem positions_recorded_isEmpty_iff (offset : Nat) :
    ((recorded instructions edges resolver).edges.positions offset).isEmpty ↔
      recordedPositions edges offset = ∅ := by
  rw [positions_recorded, List.isEmpty_iff, ← List.length_eq_zero_iff, Finset.length_sort,
    Finset.card_eq_zero]

/-- An offset leads to its expression, or to the frame in which the inputs of its expression are
written. -/
theorem enter_expression (visited : Offsets) (offset : Nat) :
    (recorded instructions edges resolver).enter visited offset =
        (.done (expression instructions edges resolver visited offset), visited) ∨
      ∃ i, lastAt instructions offset = some i ∧ offset ∉ visited ∧
        recordedPositions edges offset ≠ ∅ ∧
        (recorded instructions edges resolver).enter visited offset =
          (.descend ⟨offset, i.text resolver, (recordedPositions edges offset).sort (· ≥ ·), [], [],
            []⟩, visited.insert offset) := by
  have hknown := instruction?_ofList instructions (EdgeSet.empty.insertAll edges) resolver offset
  rw [expression, enter, leaf, hknown]
  cases hlast : lastAt instructions offset with
  | none => exact .inl rfl
  | some i =>
    simp only
    split
    · exact .inl rfl
    · next hnew =>
      by_cases hempty : recordedPositions edges offset = ∅
      · left
        rw [if_pos ((positions_recorded_isEmpty_iff ..).mpr hempty), if_pos hempty,
          erase_insert hnew]
        rfl
      · right
        refine ⟨i, rfl, hnew, hempty, ?_⟩
        rw [if_neg (mt (positions_recorded_isEmpty_iff ..).mp hempty), positions_recorded,
          reverse_sort]
        rfl

/-- The expression of an instruction with recorded edges. -/
theorem expression_eq {visited : Offsets} {offset : Nat} {i : Instruction}
    (hlast : lastAt instructions offset = some i) (hnew : offset ∉ visited)
    (hedges : recordedPositions edges offset ≠ ∅) :
    expression instructions edges resolver visited offset = i.text resolver ++ "(" ++
      ", ".intercalate (((recordedPositions edges offset).sort (· ≥ ·)).map fun position =>
        " or ".intercalate (((recordedProducers edges offset position).sort (· ≤ ·)).map
          (expression instructions edges resolver (visited.insert offset)))) ++ ")" := by
  rw [expression]
  split
  · next hnone =>
    rw [hlast] at hnone
    cases hnone
  · next j hj =>
    rw [hlast] at hj
    cases hj
    rw [if_neg hnew, if_neg hedges]

/-- The expression of an instruction without recorded edges. -/
theorem expression_eq_text {visited : Offsets} {offset : Nat} {i : Instruction}
    (hlast : lastAt instructions offset = some i) (hnew : offset ∉ visited)
    (hedges : recordedPositions edges offset = ∅) :
    expression instructions edges resolver visited offset = i.text resolver := by
  rw [expression]
  split
  · next hnone => cases hlast.symm.trans hnone
  · next j hj =>
    cases hlast.symm.trans hj
    rw [if_neg hnew, if_pos hedges]

/-- The loop writes the expression of the offset that it turns to. -/
theorem run_next (frames : List Frame) (visited : Offsets) (offset : Nat) :
    (recorded instructions edges resolver).run ⟨frames, visited, some offset, none⟩ =
      (recorded instructions edges resolver).run
        ⟨frames, visited, none, some (expression instructions edges resolver visited offset)⟩ := by
  -- the recursion is on the instructions that have not been visited
  induction hn : instructions.countP (·.offset ∉ visited) using Nat.strong_induction_on
    generalizing frames visited offset with
  | _ n ih =>
    rcases enter_expression instructions edges resolver visited offset with
      henter | ⟨i, hlast, hnew, hedges, henter⟩
    · refine run_congr ?_
      simp only [step, arrive, henter]
    · have harrive :
          (recorded instructions edges resolver).run ⟨frames, visited, some offset, none⟩ =
          (recorded instructions edges resolver).run ⟨⟨offset, i.text resolver,
            (recordedPositions edges offset).sort (· ≥ ·), [], [], []⟩ :: frames,
            visited.insert offset, none, none⟩ := by
        refine run_congr ?_
        simp only [step, arrive, henter]
      have hless : instructions.countP (·.offset ∉ visited.insert offset) < n :=
        hn ▸ countP_insert_lt hlast hnew
      have hproducers : ∀ position ∈ (recordedPositions edges offset).sort (· ≥ ·),
          (recorded instructions edges resolver).edges.producers offset position ≠ [] := by
        intro position hposition hnil
        obtain ⟨producer, hedge⟩ := mem_recordedPositions.mp ((Finset.mem_sort _).mp hposition)
        have hmem := (Finset.mem_sort (· ≤ ·)).mpr (mem_recordedProducers.mpr hedge)
        rw [← producers_recorded instructions edges resolver, hnil] at hmem
        cases hmem
      rw [harrive, run_positions (fun frames producer => ih _ hless frames _ producer rfl) offset
        (i.text resolver) frames hproducers, erase_insert hnew,
        expression_eq instructions edges resolver hlast hnew hedges]
      simp only [producers_recorded]
      rfl

/-- Rendering gives the expression and leaves the visited offsets as they were. -/
theorem render_recorded (visited : Offsets) (offset : Nat) :
    (recorded instructions edges resolver).render offset visited =
      (expression instructions edges resolver visited offset, visited) := by
  rw [render, start, run_next, run_eq]
  rfl

end

/-! ## The stack of frames -/

/-- The loop gets from one state to another. -/
def Reaches (v : View) : Machine → Machine → Prop :=
  Relation.ReflTransGen fun m m' => v.step m = .inr m'

/-- The loop ends, with the result of running it. -/
theorem exists_reaches_stop (v : View) (m : Machine) :
    ∃ m', v.Reaches m m' ∧ v.step m' = .inl (v.run m) := by
  fun_induction run v m with
  | case1 m result hstep => exact ⟨m, .refl, hstep⟩
  | case2 m m' hstep ih =>
    obtain ⟨last, hreaches, hlast⟩ := ih
    exact ⟨last, .head hstep hreaches, hlast⟩

/-- No offset has two frames, and the frames are for instructions that are being visited. -/
structure Distinct (v : View) (m : Machine) : Prop where
  nodup : (m.frames.map Frame.offset).Nodup
  visited : ∀ f ∈ m.frames, f.offset ∈ m.visited
  known : ∀ f ∈ m.frames, f.offset ∈ v.instructions

section

variable {v : View} {m m' : Machine}

/-- Turning to an expression opens a frame only for an offset that has none. -/
theorem Distinct.arrive (h : v.Distinct m) : v.Distinct (v.arrive m) := by
  obtain ⟨frames, visited, next?, finished?⟩ := m
  cases next? with
  | none => exact h
  | some offset =>
    rcases v.enter_cases visited offset with ⟨text, henter⟩ | ⟨hknown, hnew, henter⟩
    · simp only [View.arrive, henter]
      exact ⟨h.nodup, h.visited, h.known⟩
    · simp only [View.arrive, henter]
      refine ⟨List.nodup_cons.mpr ⟨?_, h.nodup⟩, List.forall_mem_cons.mpr ⟨?_, fun f hf => ?_⟩,
        List.forall_mem_cons.mpr ⟨hknown, h.known⟩⟩
      · intro hmem
        obtain ⟨f, hf, rfl⟩ := List.mem_map.mp hmem
        exact hnew (h.visited f hf)
      · simp
      · exact Std.ExtTreeSet.mem_insert.mpr (.inr (h.visited f hf))

/-- Going on with the innermost frame keeps or closes it. -/
theorem Distinct.proceed (h : v.Distinct m) (hstep : v.proceed m = .inr m') : v.Distinct m' := by
  obtain ⟨frames, visited, next?, finished?⟩ := m
  cases frames with
  | nil => cases hstep
  | cons top rest =>
    obtain ⟨offset, leaf, positions, producers, alternatives, arguments⟩ := top
    obtain ⟨hoffset, hrest⟩ := List.nodup_cons.mp h.nodup
    obtain ⟨hvisited, hvisited'⟩ := List.forall_mem_cons.mp h.visited
    obtain ⟨hknown, hknown'⟩ := List.forall_mem_cons.mp h.known
    cases producers with
    | cons producer producers =>
      cases hstep
      exact ⟨h.nodup, List.forall_mem_cons.mpr ⟨hvisited, hvisited'⟩,
        List.forall_mem_cons.mpr ⟨hknown, hknown'⟩⟩
    | nil =>
      cases positions with
      | cons position positions =>
        cases hstep
        exact ⟨h.nodup, List.forall_mem_cons.mpr ⟨hvisited, hvisited'⟩,
          List.forall_mem_cons.mpr ⟨hknown, hknown'⟩⟩
      | nil =>
        cases hstep
        refine ⟨hrest, fun f hf => ?_, hknown'⟩
        -- the other frames have other offsets, so theirs stay visited
        refine Std.ExtTreeSet.mem_erase.mpr ⟨?_, hvisited' f hf⟩
        rw [ne_eq, Std.LawfulEqCmp.compare_eq_iff_eq]
        rintro rfl
        exact hoffset (List.mem_map.mpr ⟨f, hf, rfl⟩)

/-- No offset has two frames in a state that the loop gets to. -/
theorem Distinct.of_reaches (h : v.Distinct m) (hreaches : v.Reaches m m') : v.Distinct m' := by
  induction hreaches with
  | refl => exact h
  | tail _ hstep ih => exact ih.arrive.proceed hstep

end

/-- At the start there are no frames. -/
theorem distinct_start (v : View) (visited : Offsets) (offset : Nat) :
    v.Distinct (start visited offset) :=
  ⟨.nil, fun _ hf => (nomatch hf), fun _ hf => (nomatch hf)⟩

/-- There are at most as many frames as instructions. -/
theorem Distinct.length_le {instructions : List Instruction} {edges : EdgeSet} {resolver : Resolver}
    {m : Machine} (h : (ofList instructions edges resolver).Distinct m) :
    m.frames.length ≤ instructions.length := by
  have hsubset : m.frames.map Frame.offset ⊆ instructions.map Instruction.offset := by
    intro offset hoffset
    obtain ⟨f, hf, rfl⟩ := List.mem_map.mp hoffset
    have hknown := h.known f hf
    rw [Std.TreeMap.mem_iff_isSome_getElem?, ← instruction?, instruction?_ofList] at hknown
    obtain ⟨i, hi⟩ := Option.isSome_iff_exists.mp hknown
    obtain ⟨hmem, hi⟩ := mem_of_lastAt hi
    exact hi ▸ List.mem_map_of_mem hmem
  simpa using (List.subperm_of_subset h.nodup hsubset).length_le

/-- The loop writes the expression of an offset: for any instructions and recorded edges it ends
with the expression as its result and the visited offsets as they were. On the way, also between the
two halves of a turn, no offset has two frames, so there are at most as many as instructions. -/
theorem render_eq_expression (instructions : List Instruction) (edges : List Edge)
    (resolver : Resolver) (visited : Offsets) (offset : Nat) :
    (∃ m, (recorded instructions edges resolver).Reaches (start visited offset) m ∧
        (recorded instructions edges resolver).step m =
          .inl (expression instructions edges resolver visited offset, visited)) ∧
      (recorded instructions edges resolver).render offset visited =
        (expression instructions edges resolver visited offset, visited) ∧
      ∀ m, (recorded instructions edges resolver).Reaches (start visited offset) m →
        ∀ m' ∈ [m, (recorded instructions edges resolver).arrive m],
          (m'.frames.map Frame.offset).Nodup ∧ m'.frames.length ≤ instructions.length := by
  have hrun : (recorded instructions edges resolver).run (start visited offset) =
      (expression instructions edges resolver visited offset, visited) := by
    rw [start, run_next, run_eq]
    rfl
  refine ⟨?_, hrun, fun m hm => ?_⟩
  · rw [← hrun]
    exact exists_reaches_stop ..
  · have hdistinct := (distinct_start _ visited offset).of_reaches hm
    intro m' hm'
    simp only [List.mem_cons, List.not_mem_nil, or_false] at hm'
    rcases hm' with rfl | rfl
    · exact ⟨hdistinct.nodup, hdistinct.length_le⟩
    · exact ⟨hdistinct.arrive.nodup, hdistinct.arrive.length_le⟩

end View

end Provenance
