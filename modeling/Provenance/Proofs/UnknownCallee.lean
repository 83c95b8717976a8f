import Provenance.Proofs.Boundaries
import Provenance.Proofs.ExactPaths
import Provenance.Proofs.Replay
import Provenance.Proofs.Stages

/-!
# The one error after partitioning

Once a body has been decoded and cut into blocks, an analysis can only fail because the signature
of a callee is not known, and then it names the first such callee on its way
(`Analysis.ofBytes_unknownCallee`). Three facts are behind this. Every instruction that was read has
an effect, unless it calls an unknown callee (`Instruction.Decoded.effect_eq_ok`). A block starts at
every offset that a path records, also at the handlers that it inserts
(`Graph.Admissible.exists_start_of_mem_trail`). And replaying stops at the first error
(`Simulation.fault?_run_eq`).
-/

namespace Provenance

/-! ## Calls -/

/-- The mnemonics of the instructions that call what their token names. -/
def OpCode.callNames : List String :=
  ["call", "calli", "callvirt", "newobj"]

/-- The callee of a call, if its signature is not known. -/
def Instruction.unknownCallee? (resolver : Resolver) (i : Instruction) : Option Token :=
  if i.name ∈ OpCode.callNames then i.token?.filter fun t => (resolver.signature? t).isNone
  else none

namespace OpCode

/-- The call sites of the table are the opcodes with these mnemonics. -/
theorem isCallSite_iff : ∀ o ∈ all, o.isCallSite ↔ o.name ∈ callNames := by
  decide +kernel

/-- A call site has a token, is no return, and what it takes depends on the callee. -/
theorem callSite_spec : ∀ o ∈ all, o.isCallSite →
    o.operand.tokenKind?.isSome ∧ o.isReturn = false ∧ o.pop.count? = none := by
  decide +kernel

/-- What an opcode does to the stack is fixed, unless it is a call site or a return. -/
theorem fixed_spec : ∀ o ∈ all, o.isCallSite = false → o.isReturn = false →
    o.pop.count?.isSome ∧ o.push.count?.isSome := by
  decide +kernel

end OpCode

namespace Instruction

section

variable {resolver : Resolver} {i : Instruction}

/-- The callee is not known. -/
theorem unknownCallee?_eq_some_iff {t : Token} :
    i.unknownCallee? resolver = some t ↔
      i.name ∈ OpCode.callNames ∧ i.token? = some t ∧ resolver.signature? t = none := by
  unfold unknownCallee?
  split
  · next hcall => simp [hcall, Option.filter_eq_some_iff]
  · next hcall => simp [hcall]

/-- An instruction that was read has an opcode of the table. -/
theorem Decoded.opcode_mem (h : i.Decoded) : i.opcode ∈ OpCode.all := by
  obtain ⟨offset, bytes, hread⟩ := h
  obtain ⟨p, hp, -, -, rfl⟩ := decode_eq_ok_iff.mp hread
  exact hp.opcode

/-- An instruction that was read and whose opcode asks for a token has one. -/
theorem Decoded.exists_token (h : i.Decoded) (htoken : i.opcode.operand.tokenKind?.isSome) :
    ∃ t, i.token? = some t := by
  obtain ⟨offset, bytes, hread⟩ := h
  obtain ⟨p, -, -, -, rfl⟩ := decode_eq_ok_iff.mp hread
  obtain ⟨kind, hkind⟩ := Option.isSome_iff_exists.mp htoken
  have hshape : p.opcode.operand = .token kind := by
    rw [Piece.instruction_opcode] at hkind
    unfold OperandShape.tokenKind? at hkind
    split at hkind
    · next heq =>
      cases hkind
      exact heq
    · cases hkind
  exact ⟨⟨ScalarKind.u32.decode p.payload⟩, by
    simp only [token?, Piece.instruction, Piece.operand, hshape]⟩

/-- The callee of a call that was read is known, or else it is the unknown one. -/
theorem Decoded.unknownCallee?_eq_none_iff (h : i.Decoded) :
    i.unknownCallee? resolver = none ↔
      (i.name ∈ OpCode.callNames → ∃ t, i.token? = some t ∧ (resolver.signature? t).isSome) := by
  unfold unknownCallee?
  split
  · next hcall =>
    have hsite := (OpCode.isCallSite_iff _ h.opcode_mem).mpr hcall
    obtain ⟨t, ht⟩ := h.exists_token (OpCode.callSite_spec _ h.opcode_mem hsite).1
    simp [hcall, ht, Option.filter_eq_none_iff, Option.isSome_iff_ne_none]
  · next hcall => simp [hcall]

/-- A call to an unknown callee has no effect. -/
theorem Decoded.effect_eq_error (h : i.Decoded) {t : Token}
    (ht : i.unknownCallee? resolver = some t) (isEmpty : Bool) :
    i.effect resolver isEmpty = .error (.unresolvedToken t) := by
  obtain ⟨hcall, htoken, hunknown⟩ := unknownCallee?_eq_some_iff.mp ht
  have hsite := (OpCode.isCallSite_iff _ h.opcode_mem).mpr hcall
  obtain ⟨-, hreturn, hpop⟩ := OpCode.callSite_spec _ h.opcode_mem hsite
  simp [effect, hreturn, hpop, hsite, callEffect, htoken, hunknown]

/-- Every other instruction that was read has an effect. -/
theorem Decoded.effect_eq_ok (h : i.Decoded) (hknown : i.unknownCallee? resolver = none)
    (isEmpty : Bool) : ∃ effect, i.effect resolver isEmpty = .ok effect := by
  unfold effect
  cases hreturn : i.opcode.isReturn with
  | true => exact ⟨_, rfl⟩
  | false =>
    cases hsite : i.opcode.isCallSite with
    | true =>
      obtain ⟨-, -, hpop⟩ := OpCode.callSite_spec _ h.opcode_mem hsite
      have hcall := (OpCode.isCallSite_iff _ h.opcode_mem).mp hsite
      obtain ⟨t, htoken, hsignature⟩ := h.unknownCallee?_eq_none_iff.mp hknown hcall
      obtain ⟨signature, hsignature⟩ := Option.isSome_iff_exists.mp hsignature
      simp [hpop, callEffect, htoken, hsignature]
    | false =>
      obtain ⟨hpop, hpush⟩ := OpCode.fixed_spec _ h.opcode_mem hsite hreturn
      obtain ⟨pops, hpops⟩ := Option.isSome_iff_exists.mp hpop
      obtain ⟨pushes, hpushes⟩ := Option.isSome_iff_exists.mp hpush
      simp [hpops, hpushes]

end

end Instruction

/-! ## Replaying what was read -/

/-- An instruction that was read stops a replay exactly if it calls an unknown callee. -/
theorem Replay.fault?_step {resolver : Resolver} {i : Instruction} (h : i.Decoded) (r : Replay) :
    (r.step resolver i).fault? =
      r.fault?.or ((i.unknownCallee? resolver).map .unresolvedToken) := by
  cases hfault : r.fault? with
  | some e => rw [step_of_fault hfault, hfault, Option.some_or]
  | none =>
    rw [Option.none_or]
    cases hcallee : i.unknownCallee? resolver with
    | none =>
      obtain ⟨effect, heffect⟩ := h.effect_eq_ok hcallee r.stack.isEmpty
      rw [step_of_effect hfault heffect, apply_fault?, hfault, Option.map_none]
    | some t =>
      rw [step_of_error hfault (h.effect_eq_error hcallee _)]
      rfl

/-- A path over instructions that were read is stopped by its first call to an unknown callee. -/
theorem Replay.fault?_path (resolver : Resolver) {blocks : Array Block} {p : Path}
    {is : List Instruction} (hcode : p.code? blocks = some is) (hread : ∀ i ∈ is, i.Decoded) :
    (path resolver blocks p).fault? =
      (is.findSome? (Instruction.unknownCallee? resolver)).map .unresolvedToken := by
  rw [path_eq hcode, fault?_foldl Replay.fault? (fun r i hi => fault?_step (hread i hi) r),
    List.map_findSome?]
  rfl

/-- A simulation over instructions that were read is stopped by the first call to an unknown callee
on its way. -/
theorem Simulation.fault?_run_eq (resolver : Resolver) {blocks : Array Block} {paths : List Path}
    {codes : List (List Instruction)}
    (hcodes : List.Forall₂ (fun p is => p.code? blocks = some is) paths codes)
    (hread : ∀ i ∈ codes.flatten, i.Decoded) (edges : EdgeSet) :
    (run resolver blocks edges paths).fault? =
      (codes.flatten.findSome? (Instruction.unknownCallee? resolver)).map .unresolvedToken := by
  rw [fault?_run]
  induction hcodes with
  | nil => rfl
  | @cons p is paths codes hcode _ ih =>
    rw [List.flatten_cons] at hread ⊢
    have hfirst := Replay.fault?_path resolver hcode fun i hi =>
      hread i (List.mem_append_left _ hi)
    rw [List.findSome?_cons, ih fun i hi => hread i (List.mem_append_right _ hi), hfirst,
      List.findSome?_append]
    cases is.findSome? (Instruction.unknownCallee? resolver) <;> rfl

/-! ## The offsets that a path records -/

namespace Graph

/-- The handlers on the way are handlers of clauses. -/
theorem exists_clause_of_mem_handlersAfter {g : Graph} {v : Visit} {s : Nat}
    (h : s ∈ g.handlersAfter v) : ∃ c ∈ g.clauses, c.handlerStart = s := by
  unfold handlersAfter at h
  split at h
  · next t _ _ =>
    obtain ⟨c, hc, rfl⟩ := Option.map_eq_some_iff.mp (Option.mem_toList.mp h)
    unfold leftFinally? at hc
    split at hc
    · exact ⟨c, List.mem_of_find?_eq_some hc, rfl⟩
    · cases hc
  · cases h

/-- If a block starts at every handler, one starts at every offset that a path records. -/
theorem Admissible.exists_start_of_mem_trail {g : Graph}
    (hhandlers : ∀ c ∈ g.clauses, ∃ b ∈ g.blocks, b.start = c.handlerStart) {v : Visit}
    (h : g.Admissible v) : ∀ s ∈ v.trail, ∃ b ∈ g.blocks, b.start = s := by
  induction h with
  | @entry b mem _ =>
    intro s hs
    cases List.mem_singleton.mp hs
    exact ⟨b, mem, rfl⟩
  | @extend v w _ hext ih =>
    intro s hs
    rw [hext.enters.trail_eq] at hs
    rcases List.mem_cons.mp hs with rfl | hs
    · exact ⟨w.block, hext.enters.mem, rfl⟩
    · rcases List.mem_append.mp hs with hs | hs
      · obtain ⟨c, hc, rfl⟩ := exists_clause_of_mem_handlersAfter hs
        exact hhandlers c hc
      · exact ih s hs

end Graph

/-- A block of the partition starts at every handler. -/
theorem Block.exists_start_of_mem_clauses {instructions : List Instruction} {length : Nat}
    {clauses : List Clause} {blocks : Array Block} (pos : ∀ i ∈ instructions, 0 < i.size)
    (h : partition instructions length clauses = .ok blocks) {c : Clause} (hc : c ∈ clauses) :
    ∃ b ∈ blocks, b.start = c.handlerStart := by
  obtain ⟨n, hn⟩ := List.mem_iff_getElem?.mp hc
  exact exists_start_of_mem_discover pos h (mem_discover_iff.mpr (.handlerStart hn))

/-- What the paths carry out are the instructions of the blocks that start at their offsets. -/
theorem Path.mem_flatten_codes_iff {blocks : Array Block} {paths : List Path}
    {codes : List (List Instruction)}
    (hfind : ∀ {s : Nat} {b : Block}, Block.find? blocks s = some b ↔ b ∈ blocks ∧ b.start = s)
    (hcodes : paths.mapM (Path.code? blocks) = some codes) {i : Instruction} :
    i ∈ codes.flatten ↔
      ∃ b ∈ blocks, (∃ p ∈ paths, b.start ∈ p.starts) ∧ i ∈ b.instructions := by
  simp only [List.mem_flatten, mem_iff_of_mapM_eq_some hcodes]
  refine ⟨fun h => ?_, fun h => ?_⟩
  · obtain ⟨is, ⟨p, hp, hcode⟩, hi⟩ := h
    obtain ⟨b, ⟨s, hs, hb⟩, hi⟩ := (Path.mem_code_iff hcode).mp hi
    obtain ⟨hmem, rfl⟩ := hfind.mp hb
    exact ⟨b, hmem, ⟨p, hp, hs⟩, hi⟩
  · obtain ⟨b, hb, ⟨p, hp, hs⟩, hi⟩ := h
    obtain ⟨is, -, hcode⟩ := exists_of_mem_left (mapM_eq_some_iff.mp hcodes) hp
    exact ⟨is, ⟨p, hp, hcode⟩,
      (Path.mem_code_iff hcode).mpr ⟨b, ⟨b.start, hs, hfind.mpr ⟨hb, rfl⟩⟩, hi⟩⟩

/-- The paths of instructions that were read are found, and what they carry out are the instructions
of the blocks that they visit. -/
theorem Graph.exists_codes {instructions : List Instruction} {length : Nat} {clauses : List Clause}
    {blocks : Array Block} (hread : ∀ i ∈ instructions, i.Decoded)
    (hblocks : Block.partition instructions length clauses = .ok blocks) (settings : Settings) :
    ∃ paths codes, (Graph.mk blocks clauses settings).paths = .ok paths ∧
      paths.toList.mapM (Path.code? blocks) = some codes ∧
      ∀ i, i ∈ codes.flatten ↔
        ∃ b ∈ blocks, (∃ p ∈ paths.toList, b.start ∈ p.starts) ∧ i ∈ b.instructions := by
  have pos : ∀ i ∈ instructions, 0 < i.size := fun i hi => (hread i hi).size_pos
  have hg := wellFormed_of_partition pos hblocks clauses settings
  obtain ⟨paths, hpaths, -, hmem⟩ := hg.paths_spec
  have hcode : ∀ p ∈ paths.toList, ∃ is, p.code? blocks = some is := by
    intro p hp
    obtain ⟨v, hv, -, rfl⟩ := (hmem p).mp hp
    refine Path.exists_code fun s hs => ?_
    obtain ⟨b, hb, rfl⟩ := hv.exists_start_of_mem_trail
      (fun c hc => Block.exists_start_of_mem_clauses pos hblocks hc) s (List.mem_reverse.mp hs)
    exact ⟨b, hg.find.mpr ⟨hb, rfl⟩⟩
  obtain ⟨codes, hcodes⟩ := exists_mapM_eq_some hcode
  exact ⟨paths, codes, hpaths, hcodes, fun i => Path.mem_flatten_codes_iff hg.find hcodes⟩

/-! ## Analysing -/

/-- A body that calls nothing can be analysed once it has been cut into blocks. -/
theorem Analysis.exists_ofBytes_eq_ok_of_forall_notMem {bytes : List UInt8}
    {instructions : List Instruction} {clauses : List Clause} {blocks : Array Block}
    (hread : Body.decode bytes = .ok instructions)
    (hblocks : Block.partition instructions bytes.length clauses = .ok blocks)
    (hcalls : ∀ i ∈ instructions, i.name ∉ OpCode.callNames) (resolver : Resolver)
    (settings : Settings) : ∃ a, ofBytes bytes clauses resolver settings = .ok a := by
  have hdecoded : ∀ i ∈ instructions, i.Decoded := fun i hi => Body.decoded_of_mem hread hi
  obtain ⟨paths, codes, hpaths, hcodes, hcarried⟩ := Graph.exists_codes hdecoded hblocks settings
  have hmem : ∀ i ∈ codes.flatten, i ∈ instructions := by
    intro i hi
    obtain ⟨b, hb, -, hi⟩ := (hcarried i).mp hi
    exact Block.mem_of_mem_partition hblocks hb hi
  rw [exists_ofBytes_eq_ok_iff hread hblocks hpaths, Simulation.fault?_run_eq resolver
    (mapM_eq_some_iff.mp hcodes) (fun i hi => hdecoded i (hmem i hi)), Option.map_eq_none_iff,
    List.findSome?_eq_none_iff]
  exact fun i hi => if_neg (hcalls i (hmem i hi))

/-- After a body has been decoded and cut into blocks, its paths are found, and a block starts at
each of their offsets. The analysis succeeds exactly if the signature is known for the token of
every call in a block that a path visits. Otherwise it fails with the first token on its way, path
by path in the order of discovery, whose signature is not known; there is no other error. -/
theorem Analysis.ofBytes_unknownCallee {bytes : List UInt8} {instructions : List Instruction}
    {clauses : List Clause} {blocks : Array Block} (hread : Body.decode bytes = .ok instructions)
    (hblocks : Block.partition instructions bytes.length clauses = .ok blocks)
    (resolver : Resolver) (settings : Settings) :
    ∃ paths codes, (Graph.mk blocks clauses settings).paths = .ok paths ∧
      paths.toList.mapM (Path.code? blocks) = some codes ∧
      ((∃ a, ofBytes bytes clauses resolver settings = .ok a) ↔
        ∀ b ∈ blocks, (∃ p ∈ paths.toList, b.start ∈ p.starts) → ∀ i ∈ b.instructions,
          i.name ∈ ["call", "calli", "callvirt", "newobj"] →
            ∃ t, i.token? = some t ∧ (resolver.signature? t).isSome) ∧
      ∀ e, ofBytes bytes clauses resolver settings = .error e ↔
        ∃ before i after t, codes.flatten = before ++ i :: after ∧
          (∀ j ∈ before, j.unknownCallee? resolver = none) ∧
          i.unknownCallee? resolver = some t ∧ e = .unresolvedToken t := by
  have hdecoded : ∀ i ∈ instructions, i.Decoded := fun i hi => Body.decoded_of_mem hread hi
  obtain ⟨paths, codes, hpaths, hcodes, hcarried⟩ := Graph.exists_codes hdecoded hblocks settings
  have hcarriedDecoded : ∀ i ∈ codes.flatten, i.Decoded := by
    intro i hi
    obtain ⟨b, hb, -, hi⟩ := (hcarried i).mp hi
    exact hdecoded i (Block.mem_of_mem_partition hblocks hb hi)
  have hfault := Simulation.fault?_run_eq resolver (mapM_eq_some_iff.mp hcodes)
    hcarriedDecoded .empty
  refine ⟨paths, codes, hpaths, hcodes, ?_, fun e => ?_⟩
  · rw [exists_ofBytes_eq_ok_iff hread hblocks hpaths, hfault, Option.map_eq_none_iff,
      List.findSome?_eq_none_iff]
    refine ⟨fun h b hb hp i hib => ?_, fun h i hi => ?_⟩
    · have hi := (hcarried i).mpr ⟨b, hb, hp, hib⟩
      exact (hcarriedDecoded i hi).unknownCallee?_eq_none_iff.mp (h i hi)
    · obtain ⟨b, hb, hp, hib⟩ := (hcarried i).mp hi
      exact (hcarriedDecoded i hi).unknownCallee?_eq_none_iff.mpr (h b hb hp i hib)
  · rw [ofBytes_eq_error_iff hread hblocks hpaths, hfault, Option.map_eq_some_iff]
    refine ⟨fun h => ?_, fun h => ?_⟩
    · obtain ⟨t, hfirst, rfl⟩ := h
      obtain ⟨before, i, after, hsplit, hi, hbefore⟩ := List.findSome?_eq_some_iff.mp hfirst
      exact ⟨before, i, after, t, hsplit, hbefore, hi, rfl⟩
    · obtain ⟨before, i, after, t, hsplit, hbefore, hi, rfl⟩ := h
      exact ⟨t, List.findSome?_eq_some_iff.mpr ⟨before, i, after, hsplit, hi, hbefore⟩, rfl⟩

/-- A body that leaves a range over a handler with a call. -/
def Body.callOnLeave : List UInt8 :=
  [0x00, 0xDE, 0x06, 0x28, 0x01, 0x00, 0x00, 0x06, 0xDC, 0x2A]

/-- The clause that makes it a finally handler. -/
def Body.callFinally : Clause :=
  ⟨2, 0, 3, 3, 6, 0⟩

/-- The only path inserts the handler, and without a signature for its token the analysis fails at
the call. -/
theorem Analysis.ofBytes_unknownCallee_finally :
    ∃ is blocks, Body.decode Body.callOnLeave = .ok is ∧
      Block.partition is 10 [Body.callFinally] = .ok blocks ∧
      ofBytes Body.callOnLeave [Body.callFinally]
        .unknown ⟨2, true⟩ = .error (.unresolvedToken ⟨0x06000001⟩) ∧
      ∃ paths codes, (Graph.mk blocks [Body.callFinally] ⟨2, true⟩).paths = .ok paths ∧
        paths.toList.mapM (Path.code? blocks) = some codes ∧
        ∃ before i after, codes.flatten = before ++ i :: after ∧
          (∀ j ∈ before, j.unknownCallee? .unknown = none) ∧
          i.unknownCallee? .unknown = some ⟨0x06000001⟩ := by
  have hok : ((Body.decode Body.callOnLeave).bind
      fun is => Block.partition is 10 [Body.callFinally]).isOk := by cbv
  have herror : ofBytes Body.callOnLeave
      [Body.callFinally] .unknown ⟨2, true⟩ = .error (.unresolvedToken ⟨0x06000001⟩) := by cbv
  obtain ⟨is, blocks, hread, hblocks⟩ := exists_of_isOk_bind hok
  obtain ⟨paths, codes, hpaths, hcodes, -, herrors⟩ :=
    ofBytes_unknownCallee hread hblocks .unknown ⟨2, true⟩
  obtain ⟨before, i, after, t, hsplit, hbefore, hi, heq⟩ := (herrors _).mp herror
  cases heq
  exact ⟨is, blocks, hread, hblocks, herror, paths, codes, hpaths, hcodes, before, i, after, hsplit,
    hbefore, hi⟩

end Provenance
