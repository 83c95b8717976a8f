import Mathlib.Algebra.Ring.Int.Defs
import Provenance.Instruction.Decode
import Provenance.Proofs.Partition
import Provenance.Proofs.Replay

/-!
# What is below a replay

A replay sees only the part of the stack that its instructions take from. `Replay.turns` are the
instructions that it carries out, each with the number of values that it finds and with its effect.
If every turn spares the lowest values of the stack (`Replay.Turn.Spares`), then these values can be
exchanged for any others, or for none: the replay finds the same edges and leaves the same values
above them (`Replay.foldl_step_onto`). One instruction is `Replay.step_onto`.

A return takes a value only if there is one, so whether the stack is empty matters to it and to no
other instruction (`Instruction.effect_congr`). That is why a return has to find a value above those
that are exchanged.
-/

namespace Provenance

namespace Replay

/-! ## Turns -/

/-- An instruction as it is carried out. -/
structure Turn where
  instruction : Instruction
  /-- The number of values on the stack before the instruction. -/
  depth : Nat
  effect : Effect

namespace Turn

/-- By how much the stack grows. -/
def gain (t : Turn) : Int :=
  t.effect.pushes - t.effect.pops

/-- The instruction takes none of the lowest `n` values. A return, which would take one of them if
there were no others, finds a value above them. -/
def Spares (n : Nat) (t : Turn) : Prop :=
  t.effect.pops + n ≤ t.depth ∧ (t.instruction.opcode.isReturn → n < t.depth)

instance (n : Nat) (t : Turn) : Decidable (t.Spares n) :=
  inferInstanceAs (Decidable (_ ∧ _))

end Turn

/-- The instructions that a replay carries out. It stops at one that has no effect. -/
def turns (resolver : Resolver) (r : Replay) : List Instruction → List Turn
  | [] => []
  | i :: rest =>
    match i.effect resolver r.stack.isEmpty with
    | .ok effect => ⟨i, r.stack.length, effect⟩ :: turns resolver (r.apply i effect) rest
    | .error _ => []

section

variable {resolver : Resolver} {r : Replay} {i : Instruction} {rest : List Instruction}

/-- An instruction with an effect is carried out, and then the others. -/
theorem turns_of_effect {effect : Effect} (h : i.effect resolver r.stack.isEmpty = .ok effect) :
    turns resolver r (i :: rest) =
      ⟨i, r.stack.length, effect⟩ :: turns resolver (r.apply i effect) rest := by
  simp only [turns, h]

/-- An instruction without an effect is not carried out, nor are the others. -/
theorem turns_of_error {e : Error} (h : i.effect resolver r.stack.isEmpty = .error e) :
    turns resolver r (i :: rest) = [] := by
  simp only [turns, h]

/-- After an instruction with an effect the others are carried out. -/
theorem foldl_step_of_effect {effect : Effect} (hr : r.fault? = none)
    (h : i.effect resolver r.stack.isEmpty = .ok effect) :
    (i :: rest).foldl (step resolver) r = rest.foldl (step resolver) (r.apply i effect) := by
  rw [List.foldl_cons, step_of_effect hr h]

/-- After an instruction without an effect nothing is carried out. -/
theorem foldl_step_of_error {e : Error} (hr : r.fault? = none)
    (h : i.effect resolver r.stack.isEmpty = .error e) :
    (i :: rest).foldl (step resolver) r = r.fail e := by
  rw [List.foldl_cons, step_of_error hr h]
  exact foldl_step_of_fault rfl rest

end

section

variable {resolver : Resolver} {r : Replay} {is : List Instruction}

/-- A replay without an error carries out every instruction. -/
theorem map_instruction_turns (hr : r.fault? = none)
    (h : (is.foldl (step resolver) r).fault? = none) :
    (turns resolver r is).map Turn.instruction = is := by
  induction is generalizing r with
  | nil => rfl
  | cons i rest ih =>
    cases heffect : i.effect resolver r.stack.isEmpty with
    | ok effect =>
      rw [foldl_step_of_effect hr heffect] at h
      rw [turns_of_effect heffect, List.map_cons, ih (r := r.apply i effect) hr h]
    | error e =>
      rw [foldl_step_of_error hr heffect] at h
      cases h

/-- An instruction finds on the stack all the values it takes, or this is noted. -/
theorem shortfalls_apply_eq_nil_iff {i : Instruction} {effect : Effect} :
    (r.apply i effect).shortfalls = [] ↔ r.shortfalls = [] ∧ effect.pops ≤ r.stack.length := by
  unfold apply
  simp only [List.length_take]
  split
  · next hshort =>
    refine ⟨fun h => absurd h (List.cons_ne_nil _ _), fun h => ?_⟩
    omega
  · next hshort =>
    rw [iff_self_and]
    intro _
    omega

/-- Nothing is noted exactly if every instruction finds on the stack all the values it takes. -/
theorem shortfalls_foldl_step_eq_nil_iff (hr : r.fault? = none) :
    (is.foldl (step resolver) r).shortfalls = [] ↔
      r.shortfalls = [] ∧ ∀ t ∈ turns resolver r is, t.effect.pops ≤ t.depth := by
  induction is generalizing r with
  | nil => simp [turns]
  | cons i rest ih =>
    cases heffect : i.effect resolver r.stack.isEmpty with
    | ok effect =>
      rw [foldl_step_of_effect hr heffect, ih (r := r.apply i effect) hr,
        shortfalls_apply_eq_nil_iff, turns_of_effect heffect, List.forall_mem_cons, and_assoc]
    | error e =>
      rw [foldl_step_of_error hr heffect, turns_of_error heffect]
      simp [fail]

/-- If every instruction finds all the values it takes, the stack grows by what the instructions
gain together. -/
theorem length_stack_foldl_step (hr : r.fault? = none)
    (h : ∀ t ∈ turns resolver r is, t.effect.pops ≤ t.depth) :
    ((is.foldl (step resolver) r).stack.length : Int) =
      r.stack.length + ((turns resolver r is).map Turn.gain).sum := by
  induction is generalizing r with
  | nil => simp [turns]
  | cons i rest ih =>
    cases heffect : i.effect resolver r.stack.isEmpty with
    | ok effect =>
      rw [turns_of_effect heffect] at h ⊢
      obtain ⟨hpops, hrest⟩ := List.forall_mem_cons.mp h
      have hlength : ((r.apply i effect).stack.length : Int) =
          r.stack.length + (effect.pushes - effect.pops) := by
        simp only [apply_stack, List.length_append, List.length_replicate, List.length_drop]
        change effect.pops ≤ r.stack.length at hpops
        omega
      rw [foldl_step_of_effect hr heffect, ih (r := r.apply i effect) hr hrest, hlength,
        List.map_cons, List.sum_cons, Turn.gain, Int.add_assoc]
    | error e =>
      rw [foldl_step_of_error hr heffect, turns_of_error heffect]
      simp [fail]

end

/-! ## Values below -/

/-- The replay with more values below those on its stack. -/
def onto (r : Replay) (below : List Nat) : Replay :=
  { r with stack := r.stack ++ below }

section

variable {resolver : Resolver} {r : Replay} {i : Instruction} {below : List Nat}

/-- What is below does not change the effect, except that a return may find the stack empty without
it. -/
theorem effect_onto (h : i.opcode.isReturn → 0 < r.stack.length) :
    i.effect resolver (r.onto below).stack.isEmpty = i.effect resolver r.stack.isEmpty := by
  refine Instruction.effect_congr fun hreturn => ?_
  have hpos := h hreturn
  rw [isEmpty_stack, isEmpty_stack, onto, List.length_append]
  exact decide_eq_decide.mpr (by omega)

/-- An instruction that takes no more values than there are leaves what is below where it is. -/
theorem apply_onto {effect : Effect} (h : effect.pops ≤ r.stack.length) :
    (r.onto below).apply i effect = (r.apply i effect).onto below := by
  unfold apply onto
  simp only [List.take_append_of_le_length h, List.drop_append_of_le_length h, List.append_assoc]

/-- One instruction: it does the same with more values below, if it finds the values it takes above
them. -/
theorem step_onto {effect : Effect} (hr : r.fault? = none)
    (heffect : i.effect resolver r.stack.isEmpty = .ok effect)
    (hpops : effect.pops ≤ r.stack.length) (hreturn : i.opcode.isReturn → 0 < r.stack.length) :
    (r.onto below).step resolver i = (r.step resolver i).onto below := by
  rw [step_of_effect hr heffect, ← apply_onto hpops]
  exact step_of_effect hr ((effect_onto hreturn).trans heffect)

end

/-- The frame rule. Values that a replay spares can be exchanged for any others: the replay does the
same above them. -/
theorem foldl_step_onto {resolver : Resolver} {r : Replay} {is : List Instruction}
    {spared : List Nat} (hr : r.fault? = none)
    (h : ∀ t ∈ turns resolver (r.onto spared) is, t.Spares spared.length) (below : List Nat) :
    is.foldl (step resolver) (r.onto below) = (is.foldl (step resolver) r).onto below := by
  -- The turns are those above the spared values, which stay the same throughout; what an
  -- instruction finds there says what it finds above any other values.
  induction is generalizing r with
  | nil => rfl
  | cons i rest ih =>
    cases heffect : i.effect resolver (r.onto spared).stack.isEmpty with
    | error e =>
      have hsame : ∀ isEmpty, i.effect resolver isEmpty = .error e := by
        intro isEmpty
        rw [← heffect]
        exact Instruction.effect_congr fun h => absurd h (Instruction.not_isReturn heffect)
      rw [foldl_step_of_error hr (hsame _), foldl_step_of_error (r := r.onto below) hr (hsame _)]
      rfl
    | ok effect =>
      rw [turns_of_effect heffect] at h
      obtain ⟨⟨hpops, hreturn⟩, hrest⟩ := List.forall_mem_cons.mp h
      have hdepth : (r.onto spared).stack.length = r.stack.length + spared.length :=
        List.length_append
      have habove : effect.pops ≤ r.stack.length := by
        change effect.pops + spared.length ≤ (r.onto spared).stack.length at hpops
        omega
      have hvalue : i.opcode.isReturn → 0 < r.stack.length := by
        intro hi
        have hlt : spared.length < (r.onto spared).stack.length := hreturn hi
        omega
      rw [effect_onto hvalue] at heffect
      rw [apply_onto habove] at hrest
      rw [List.foldl_cons, step_onto hr heffect habove hvalue, step_of_effect hr heffect,
        ih (r := r.apply i effect) hr hrest, foldl_step_of_effect hr heffect]

/-! ## Blocks -/

section

variable {resolver : Resolver} {b : Block}

/-- What a replay with values below leaves. -/
theorem outcome_onto (r : Replay) (below : List Nat) :
    (r.onto below).outcome = r.outcome.map (· ++ below) := by
  unfold outcome onto
  cases r.fault? <;> rfl

/-- The frame rule for a block. -/
theorem block_onto {top spared : List Nat}
    (h : ∀ t ∈ turns resolver (ofStack (top ++ spared)) b.instructions, t.Spares spared.length)
    (below : List Nat) :
    (ofStack (top ++ below)).block resolver b = ((ofStack top).block resolver b).onto below :=
  foldl_step_onto (r := ofStack top) rfl h below

/-- The stack that a block leaves, and what is below it. Let the replay of a block succeed and find
every value that it takes. Then the stack grows by what the instructions of the block gain. If no
return finds the stack empty, then with any values below, the replay succeeds too, finds the same
edges and leaves these values below the stack that it leaves without them. And the values on the
stack that all instructions spare can be exchanged for any others in the same way. -/
theorem block_frame {stack left : List Nat}
    (hrun : ((ofStack stack).block resolver b).outcome = .ok left)
    (hpops : ((ofStack stack).block resolver b).shortfalls = []) :
    (turns resolver (ofStack stack) b.instructions).map Turn.instruction = b.instructions ∧
    (left.length : Int) =
      stack.length + ((turns resolver (ofStack stack) b.instructions).map Turn.gain).sum ∧
    ((∀ t ∈ turns resolver (ofStack stack) b.instructions,
        t.instruction.opcode.isReturn → 0 < t.depth) →
      ∀ below,
        ((ofStack (stack ++ below)).block resolver b).outcome = .ok (left ++ below) ∧
        ((ofStack (stack ++ below)).block resolver b).edges =
          ((ofStack stack).block resolver b).edges) ∧
    ∀ top spared, stack = top ++ spared →
      (∀ t ∈ turns resolver (ofStack stack) b.instructions, t.Spares spared.length) →
      ∃ above, left = above ++ spared ∧ ∀ below,
        ((ofStack (top ++ below)).block resolver b).outcome = .ok (above ++ below) ∧
        ((ofStack (top ++ below)).block resolver b).edges =
          ((ofStack stack).block resolver b).edges := by
  obtain ⟨hfault, rfl⟩ := outcome_eq_ok_iff.mp hrun
  obtain ⟨-, htaken⟩ := (shortfalls_foldl_step_eq_nil_iff rfl).mp hpops
  refine ⟨map_instruction_turns rfl hfault, length_stack_foldl_step rfl htaken, ?_, ?_⟩
  · intro hreturns below
    have hspares : ∀ t ∈ turns resolver (ofStack (stack ++ [])) b.instructions, t.Spares 0 := by
      rw [List.append_nil]
      exact fun t ht => ⟨htaken t ht, hreturns t ht⟩
    rw [block_onto hspares below, outcome_onto, hrun]
    exact ⟨rfl, rfl⟩
  · rintro top spared rfl hspares
    rw [block_onto hspares spared] at hfault ⊢
    have htop : ((ofStack top).block resolver b).outcome =
        .ok ((ofStack top).block resolver b).stack := outcome_eq_ok_iff.mpr ⟨hfault, rfl⟩
    refine ⟨_, rfl, fun below => ?_⟩
    rw [block_onto hspares below, outcome_onto, htop]
    exact ⟨rfl, rfl⟩

/-- A body that takes two values, calls a function with one of the results and returns the other. -/
def addAndCall : List UInt8 :=
  [0x58, 0x25, 0x28, 0x01, 0x00, 0x00, 0x06, 0x58, 0x2A]

/-- With three values its block leaves the third, and the two that are put in its place. -/
theorem block_frame_call :
    ∃ is blocks b, Body.decode addAndCall = .ok is ∧
      Block.partition is 9 [] = .ok blocks ∧ blocks.toList = [b] ∧
      ∃ resolver, resolver = Resolver.oneCallee ∧
        ((ofStack [20, 10, 30]).block resolver b).outcome = .ok [30] ∧
        ((ofStack [20, 10, 30]).block resolver b).shortfalls = [] ∧
        ((turns resolver (ofStack [20, 10, 30]) b.instructions).map Turn.gain).sum = -2 ∧
        ((ofStack [20, 10, 30, 40]).block resolver b).outcome = .ok [30, 40] ∧
        ((ofStack [20, 10, 30, 40]).block resolver b).edges =
          ((ofStack [20, 10, 30]).block resolver b).edges ∧
        ((ofStack [20, 10, 50, 60]).block resolver b).outcome = .ok [50, 60] ∧
        ((ofStack [20, 10, 50, 60]).block resolver b).edges =
          ((ofStack [20, 10, 30]).block resolver b).edges := by
  have hok : ((Body.decode addAndCall).bind fun is =>
      (Block.partition is 9 []).bind fun blocks => .ok (blocks.toList.map fun b =>
        let resolver := Resolver.oneCallee
        let r := (ofStack [20, 10, 30]).block resolver b
        (r.outcome, r.shortfalls, (turns resolver (ofStack [20, 10, 30]) b.instructions).all
          fun t => decide (t.Spares 1)))) = .ok [(.ok [30], [], true)] := by cbv
  obtain ⟨is, hread, hok⟩ := bind_eq_ok_iff.mp hok
  obtain ⟨blocks, hblocks, hok⟩ := bind_eq_ok_iff.mp hok
  obtain ⟨b, hb, hvalues⟩ := List.map_eq_singleton_iff.mp (Except.ok.inj hok)
  simp only [Prod.mk.injEq, List.all_eq_true, decide_eq_true_eq] at hvalues
  obtain ⟨hrun, hpops, hspares⟩ := hvalues
  obtain ⟨-, hdepth, hframe, hexchange⟩ := block_frame hrun hpops
  obtain ⟨hrun', hedges'⟩ :=
    hframe (fun t ht hreturn => Nat.zero_lt_of_lt ((hspares t ht).2 hreturn)) [40]
  obtain ⟨above, habove, hbelow⟩ := hexchange [20, 10] [30] rfl hspares
  cases List.self_eq_append_left.mp habove
  obtain ⟨hrun'', hedges''⟩ := hbelow [50, 60]
  refine ⟨is, blocks, b, hread, hblocks, hb, _, rfl, hrun, hpops, ?_, hrun', hedges', hrun'',
    hedges''⟩
  change (1 : Int) = 3 + _ at hdepth
  omega

end

end Replay

end Provenance
