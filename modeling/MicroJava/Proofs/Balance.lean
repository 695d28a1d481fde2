import MicroJava.Proofs.MethodCode
import MicroJava.Proofs.StackCode

/-!
# The stack is balanced

Every address of the code of a program without faults has a depth of the stack that all ways to it
agree on (`MethodCode.Balanced`): no instruction pops more than is there, whatever stands behind an
instruction or is jumped to has the depth that the instruction leaves, and a method is left with its
value on the stack and nothing else. At the beginning of every statement the stack is empty.

The depths come from the walk along the items of each body (`Compiled.walk_code`).
-/

namespace MicroJava

open MicroJava.Tree

/-- The number of words that a method leaves to its caller. -/
def Tree.MethodDecl.words (d : MethodDecl) : Nat := if d.type.isNone then 0 else 1

/-- The numbers of words that an instruction pops and pushes in code with the given methods. A call
takes the arguments of the method at its target and leaves the value. -/
def Instruction.effect? (ms : List MethodCode) (i : Instruction) : Option (Nat × Nat) :=
  if i.op = .call then
    (ms.find? fun m => i.target? = some (m.info.entry.toNat : Int)).map fun m =>
      (m.info.parameterCount.toNat, m.decl.words)
  else some (i.op.pops, i.op.pushes)

/-- The addresses at which execution may go on after an instruction. A call comes back. -/
def Instruction.successors (i : Instruction) : List Int :=
  (if i.op.fallsThrough then [((i.pc + i.op.size : Nat) : Int)] else []) ++
    (if i.op.isJump then i.target?.toList else [])

theorem Instruction.mem_successors {i : Instruction} {a : Int} : a ∈ i.successors ↔
    (i.op.fallsThrough = true ∧ a = (i.pc + i.op.size : Nat)) ∨
      (i.op.isJump = true ∧ i.target? = some a) := by
  unfold successors
  cases i.op.fallsThrough <;> cases i.op.isJump <;> simp

/-- An instruction of a method finds on the stack what it pops, and the instructions after it find
there what it leaves. -/
def Instruction.Runs (ms : List MethodCode) (m : MethodCode) (depth : Nat → Nat)
    (i : Instruction) : Prop :=
  ∃ pops pushes, i.effect? ms = some (pops, pushes) ∧ pops ≤ depth i.pc ∧
    ∀ a ∈ i.successors, ∃ j ∈ m.code, (j.pc : Int) = a ∧ depth j.pc = depth i.pc - pops + pushes

/-- The depths are those of the stack whenever the instructions of a method are reached. -/
structure MethodCode.Balanced (ms : List MethodCode) (depth : Nat → Nat) (m : MethodCode) :
    Prop where
  enters : ∃ i rest, m.code = i :: rest ∧ i.op = .enter ∧ depth (i.pc + i.op.size) = 0
  runs : ∀ i ∈ m.code, i.Runs ms m depth
  leaves : ∀ i ∈ m.code, i.op = .exit → depth i.pc = m.decl.words

/-- The effects of calls of some bodies, by the addresses where they begin. -/
def Body.effects (bs : List Body) (a : Int) : Nat × Nat :=
  match bs.find? fun b => (b.method.entry : Int) = a with
  | some b => (b.method.parameterCount, b.method.result.words)
  | none => (0, 0)

/-- Depths for one body after the other. -/
theorem Body.exists_depth {effect : CallEffect} {bs : List Body} {pc : Nat}
    (hwalk : ∀ b ∈ bs, Walk effect b.method.result.words 0 b.code 0)
    (hentry : ∀ bs₁ b bs₂, bs = bs₁ ++ b :: bs₂ →
      b.method.entry = pc + Item.codeSize (bs₁.flatMap code)) :
    ∃ depth : Nat → Nat, depth pc = 0 ∧ ∀ b ∈ bs, ∀ a i,
      (a, i) ∈ Item.located b.method.entry b.code →
        i.Takes effect b.method.result.words (depth a) (depth (a + i.size)) := by
  induction bs generalizing pc with
  | nil => exact ⟨fun _ => 0, rfl, by simp⟩
  | cons b bs ih =>
      have hpc : b.method.entry = pc := hentry [] b bs rfl
      rcases (hwalk b List.mem_cons_self).exists_depth pc with ⟨first, hfirst, hlast, hitems⟩
      have hrest : ∀ bs₁ b' bs₂, bs = bs₁ ++ b' :: bs₂ →
          b'.method.entry = pc + Item.codeSize b.code + Item.codeSize (bs₁.flatMap code) := by
        intro bs₁ b' bs₂ heq
        rw [hentry (b :: bs₁) b' bs₂ (by rw [heq]; rfl), List.flatMap_cons, Item.codeSize_append,
          Nat.add_assoc]
      rcases ih (fun b' hb' => hwalk b' (List.mem_cons_of_mem b hb')) hrest with
        ⟨depth, hdepth, hbodies⟩
      -- where one body ends and the next one begins nothing is on the stack
      have hbefore : ∀ a ≤ pc + Item.codeSize b.code,
          (if a < pc + Item.codeSize b.code then first a else depth a) = first a := by
        intro a ha
        split
        · rfl
        · obtain rfl : a = pc + Item.codeSize b.code := by omega
          rw [hdepth, hlast]
      have hbehind : ∀ a, pc + Item.codeSize b.code ≤ a →
          (if a < pc + Item.codeSize b.code then first a else depth a) = depth a :=
        fun a ha => if_neg (Nat.not_lt.2 ha)
      refine ⟨fun a => if a < pc + Item.codeSize b.code then first a else depth a,
        (hbefore pc (Nat.le_add_right _ _)).trans hfirst, fun b' hb' a i hi => ?_⟩
      dsimp only
      rcases List.mem_cons.1 hb' with rfl | hb'
      · rw [hpc] at hi
        have hbounds := Item.bounds_of_mem_located hi
        rw [hbefore a (by omega), hbefore _ hbounds.2]
        exact hitems a i hi
      · have hge : pc + Item.codeSize b.code ≤ a := by
          rcases List.append_of_mem hb' with ⟨bs₁, bs₂, heq⟩
          have hbounds := Item.bounds_of_mem_located hi
          have := hrest bs₁ b' bs₂ heq
          omega
        rw [hbehind a hge, hbehind _ (by omega)]
        exact hbodies b' hb' a i hi

namespace Compiled

variable {ms : List Member} {bs : List Body} {s : Compiler} {b b' : Body}

theorem entry_lt_entry (h : Compiled ms bs s) {bs₁ bs₂ bs₃ : List Body}
    (heq : bs = bs₁ ++ b :: (bs₂ ++ b' :: bs₃)) : b.method.entry < b'.method.entry := by
  rw [h.entries (bs₁ ++ b :: bs₂) b' bs₃ (by rw [heq, List.append_assoc]; rfl),
    h.entries bs₁ b (bs₂ ++ b' :: bs₃) heq, List.flatMap_append, List.flatMap_cons,
    Item.codeSize_append, Item.codeSize_append]
  have := b.codeSize_code_pos
  omega

/-- No two methods begin at one address. -/
theorem eq_of_entry (h : Compiled ms bs s) (hb : b ∈ bs) (hb' : b' ∈ bs)
    (hentry : b.method.entry = b'.method.entry) : b = b' := by
  rcases List.append_of_mem hb with ⟨bs₁, bs₂, rfl⟩
  rcases List.mem_append.1 hb' with hmem | hmem
  · rcases List.append_of_mem hmem with ⟨xs, ys, rfl⟩
    rw [List.append_assoc] at h
    exact absurd (h.entry_lt_entry rfl) hentry.symm.not_lt
  · rcases List.mem_cons.1 hmem with rfl | hmem
    · rfl
    · rcases List.append_of_mem hmem with ⟨xs, ys, rfl⟩
      exact absurd (h.entry_lt_entry rfl) hentry.not_lt

theorem effects_entry (h : Compiled ms bs s) (hb : b ∈ bs) :
    Body.effects bs b.method.entry = (b.method.parameterCount, b.method.result.words) := by
  have hfind : (bs.find? fun b' => (b'.method.entry : Int) = b.method.entry) = some b := by
    refine List.find?_eq_some_of_forall hb (decide_eq_true rfl) fun b' hb' hfound => ?_
    exact h.eq_of_entry hb' hb (Int.ofNat.inj (of_decide_eq_true hfound))
  rw [Body.effects, hfind]

theorem words_decl (hflawless : Flawless bs s.items.toList) (hb : b ∈ bs) :
    b.decl.words = b.method.result.words := by
  simp only [MethodDecl.words, Ty.words, Option.isNone_iff_eq_none, hflawless.void b hb]

theorem parameterCount_info (h : Compiled ms bs s) (hflawless : Flawless bs s.items.toList)
    (hb : b ∈ bs) : b.info.parameterCount.toNat = b.method.parameterCount := by
  have hle := (h.counts b hb).trans (hflawless.small b hb)
  change (UInt32.ofNat b.method.parameterCount).toNat = _
  rw [UInt32.toNat_ofNat', Nat.mod_eq_of_lt (hle.trans_lt (by decide))]

/-- In a sound state methods are called as the bodies say. -/
def callsIn (h : Compiled ms bs s) {t : Compiler} (ht : t.Sound) (hmethods : t.table.MethodsIn bs) :
    Calls where
  table := t.table
  effect := Body.effects bs
  declared := by
    intro id hid hconv hlen
    rcases hmethods id hid with heq | heq | heq | ⟨b, hb, hdescribes⟩
    · exact absurd heq hconv.1
    · exact absurd heq hconv.2
    · exact absurd heq hlen
    · rw [hdescribes.address, h.effects_entry hb, hdescribes.parameters, hdescribes.type]
  predeclared := fun _ => ht.table.convert

/-- The code of a method takes the stack from nothing to nothing. -/
theorem walk_code (h : Compiled ms bs s) (hflawless : Flawless bs s.items.toList) (hb : b ∈ bs) :
    Walk (Body.effects bs) b.method.result.words 0 b.code 0 := by
  rcases hflawless.ran b hb with ⟨t, ht, -, hmethods, -, hw, hclean⟩
  have hmoves := moves_compileStatements (c := h.callsIn ht hmethods) none b.method.result b.decl.body
  rcases hmoves t rfl with ⟨-, -, -, hmoves⟩
  rcases hmoves hclean with ⟨is, hw', hwalk⟩
  obtain rfl := hw.unique hw'
  refine .cons (.enter _) ((hwalk 0 rfl).append ?_)
  by_cases hvoid : b.method.result = .void
  · have hwords : b.method.result.words = 0 := if_pos hvoid
    rw [endCode, if_pos hvoid, hwords]
    exact .cons .exit (.single (.ret 0 0))
  · rw [endCode, if_neg hvoid]
    exact .single (.trap _)

theorem effect?_call (h : Compiled ms bs s) (hsize : s.code.code.size < 2 ^ 31)
    (hflawless : Flawless bs s.items.toList) (hb : b ∈ bs) {i : Instruction} (hop : i.op = .call)
    (htarget : i.target? = some (b.method.entry : Int)) (target : Nat → Label → Int) :
    i.effect? (bs.map (Body.toMethodCode target)) =
      some (b.method.parameterCount, b.method.result.words) := by
  have hentry : ∀ b ∈ bs, (b.toMethodCode target).info.entry.toNat = b.method.entry :=
    fun b hb => h.info_entry hsize hb
  have hfind : ((bs.map (Body.toMethodCode target)).find? fun m =>
      i.target? = some (m.info.entry.toNat : Int)) = some (b.toMethodCode target) := by
    refine List.find?_eq_some_of_forall (List.mem_map_of_mem hb) ?_ fun m hm hfound => ?_
    · rw [hentry b hb, htarget]
      exact decide_eq_true rfl
    · rcases List.mem_map.1 hm with ⟨b', hb', rfl⟩
      rw [htarget, hentry b' hb'] at hfound
      have heq := Int.ofNat.inj (Option.some.inj (of_decide_eq_true hfound))
      rw [h.eq_of_entry hb hb' heq]
  rw [Instruction.effect?, if_pos hop, hfind, Option.map_some, ← words_decl hflawless hb,
    ← h.parameterCount_info hflawless hb]
  rfl

section Depth

variable {depth : Nat → Nat} {a : Nat}

/-- Behind an item that does not leave the method stands an instruction. -/
theorem exists_behind {i : Item} (hi : (a, i) ∈ Item.located b.method.entry b.code)
    (hop : ∀ op operands, i = .instruction op operands → op ≠ .ret ∧ op ≠ .trap) {d : Nat}
    (hd : depth (a + i.size) = d) (target : Nat → Label → Int) :
    ∃ j ∈ (b.toMethodCode target).code, (j.pc : Int) = (a + i.size : Nat) ∧ depth j.pc = d := by
  rcases Body.exists_instruction_behind hi hop with ⟨j, hj, hpc⟩
  refine ⟨j.readBack, List.mem_map_of_mem hj, congrArg Nat.cast hpc, ?_⟩
  rw [← hd, ← hpc]
  rfl

variable (h : Compiled ms bs s) (hflawless : Flawless bs s.items.toList) (hb : b ∈ bs)
  (hdepth : ∀ a i, (a, i) ∈ Item.located b.method.entry b.code →
    i.Takes (Body.effects bs) b.method.result.words (depth a) (depth (a + i.size)))

include h hb hdepth in
theorem runs_instruction {op : Opcode} {operands : List Int} {ms' : List MethodCode}
    (hi : (a, .instruction op operands) ∈ Item.located b.method.entry b.code) :
    (Instruction.readBack ⟨a, op, operands⟩).Runs ms' (b.toMethodCode s.code.leadsTo) depth := by
  have hwell := (h.sound.assembles.wellFormed _ (Item.mem_of_mem_located (h.mem_located hb hi))).1
  have hcall : op ≠ .call := by
    rintro rfl
    cases hwell
  rcases (hdepth _ _ hi).instruction with ⟨hpops, hnext⟩
  refine ⟨op.pops, op.pushes, if_neg hcall, hpops, fun t ht => ?_⟩
  rcases Instruction.mem_successors.1 ht with ⟨hfalls, rfl⟩ | ⟨hjump, -⟩
  · refine exists_behind hi (fun op' operands' heq => ?_) (hnext hfalls) _
    obtain ⟨rfl, -⟩ := Item.instruction.inj heq
    constructor <;> rintro rfl <;> cases hfalls
  · change op.isJump = true at hjump
    rw [Opcode.hasTarget, hjump] at hwell
    cases hwell

include h hflawless hb hdepth in
/-- Where the label of a jump is placed nothing is on the stack, and the jump leaves nothing there. -/
theorem runs_jump {op : Opcode} {l : Label} {ms' : List MethodCode}
    (hi : (a, .jump op l) ∈ Item.located b.method.entry b.code) :
    (Instruction.readBack ⟨a, op, [s.code.leadsTo a l]⟩).Runs ms' (b.toMethodCode s.code.leadsTo)
      depth := by
  have hmem := h.mem_located hb hi
  have hop : op.isJump = true := h.sound.assembles.wellFormed _ (Item.mem_of_mem_located hmem)
  have hcall : op ≠ .call := by
    rintro rfl
    cases hop
  rcases (hdepth _ _ hi).of_jump with ⟨hbefore, hbehind⟩
  have hleft : depth a - op.pops + op.pushes = 0 := by
    rw [hbefore, Nat.sub_self, Opcode.pushes_of_isJump hop]
  refine ⟨op.pops, op.pushes, if_neg hcall, hbefore.ge, fun t ht => ?_⟩
  rcases Instruction.mem_successors.1 ht with ⟨-, rfl⟩ | ⟨-, htarget⟩
  · exact exists_behind hi (fun _ _ => Item.noConfusion) (hbehind.trans hleft.symm) _
  · rcases h.exists_place hb hi with ⟨t', hplace, hleads⟩
    have hnear := hflawless.near a t' (.jump hmem (h.mem_located hb hplace))
    rw [hleads, Instruction.target?_readBack (by simp [Opcode.hasTarget, hop]) hnear] at htarget
    obtain rfl := Option.some.inj htarget
    have hplaced : depth t' = 0 := (hdepth _ _ hplace).of_place
    exact exists_behind hplace (fun _ _ => Item.noConfusion) (hplaced.trans hleft.symm) _

include h hflawless hb hdepth in
theorem runs_call (hsize : s.code.code.size < 2 ^ 31) {address : Int}
    (hi : (a, .call address) ∈ Item.located b.method.entry b.code) :
    (Instruction.readBack ⟨a, .call, [address]⟩).Runs (bs.map (Body.toMethodCode s.code.leadsTo))
      (b.toMethodCode s.code.leadsTo) depth := by
  have hmem := h.mem_located hb hi
  rcases h.calls address (Item.mem_of_mem_located hmem) with ⟨b', hb', rfl⟩
  have hcall : Opcode.call.hasTarget = true := rfl
  have htarget := Instruction.target?_readBack hcall (hflawless.near a _ (.call hmem))
  rcases (hdepth _ _ hi).of_call with ⟨k, hbefore, hbehind⟩
  rw [h.effects_entry hb'] at hbefore hbehind
  have hleft : depth (a + (Item.call b'.method.entry).size) =
      depth a - b'.method.parameterCount + b'.method.result.words := by omega
  refine ⟨_, _, h.effect?_call hsize hflawless hb' rfl htarget _, ?_, fun t ht => ?_⟩
  · exact hbefore.ge.trans' (Nat.le_add_left _ _)
  · rcases Instruction.mem_successors.1 ht with ⟨-, rfl⟩ | ⟨hjump, -⟩
    · exact exists_behind hi (fun _ _ => Item.noConfusion) hleft _
    · cases hjump

include h hflawless hb hdepth in
theorem balanced (hsize : s.code.code.size < 2 ^ 31) :
    (b.toMethodCode s.code.leadsTo).Balanced (bs.map (Body.toMethodCode s.code.leadsTo)) depth := by
  refine ⟨⟨_, _, rfl, rfl, ?_⟩, fun i hi => ?_, fun i hi hexit => ?_⟩
  · exact (hdepth b.method.entry _ List.mem_cons_self).of_enter
  · rcases List.mem_map.1 hi with ⟨j, hj, rfl⟩
    rcases Item.mem_instructions.1 hj with ⟨a, item, hitem, hinstruction⟩
    cases item with
    | instruction op operands =>
        cases hinstruction
        exact h.runs_instruction hb hdepth hitem
    | jump op l =>
        cases hinstruction
        exact h.runs_jump hflawless hb hdepth hitem
    | call address =>
        cases hinstruction
        exact h.runs_call hflawless hb hdepth hsize hitem
    | _ => cases hinstruction
  · rcases List.mem_map.1 hi with ⟨j, hj, rfl⟩
    rcases Item.mem_instructions.1 hj with ⟨a, item, hitem, hinstruction⟩
    change _ = b.decl.words
    rw [words_decl hflawless hb]
    cases item with
    | instruction op operands =>
        cases hinstruction
        obtain rfl : op = .exit := hexit
        exact (hdepth _ _ hitem).of_exit
    | jump op l =>
        cases hinstruction
        obtain rfl : op = .exit := hexit
        exact absurd (h.sound.assembles.wellFormed _ (Item.mem_of_mem_located (h.mem_located hb hitem)))
          Bool.false_ne_true
    | call address =>
        cases hinstruction
        cases hexit
    | _ => cases hinstruction

end Depth

end Compiled

namespace TokenSource

/-- The stack is balanced in the code of every program that is compiled without diagnostics, and it
is empty wherever a statement begins. -/
theorem compile_balanced (source : TokenSource) (minDistance : Nat) :
    ∃ c, source.compile minDistance = .ok c ∧
      (c.diagnostics = #[] → c.image.code.size < 2 ^ 31 →
        ∃ ms : List MethodCode,
          ms.map MethodCode.decl = (Program.read source.tokens).members.filterMap Member.method? ∧
          ms.map MethodCode.info = c.debug.methods.toList ∧
          Instruction.decode c.image.code.toList = .ok (ms.flatMap MethodCode.code).toArray ∧
          ∃ depth : Nat → Nat, (∀ m ∈ ms, m.Balanced ms depth) ∧
            ∀ a, (a, .statement) ∈ Item.located 0 source.compiler.items.toList →
              (∃ i ∈ ms.flatMap MethodCode.code, i.pc = a) ∧ depth a = 0) := by
  rcases source.compiled_compiler with ⟨bs, h, -⟩
  refine ⟨_, source.compile_eq_ok minDistance, fun hnone hsize => ?_⟩
  have hsize : source.compiler.code.code.size < 2 ^ 31 := hsize
  have hflawless := h.flawless (not_faulty h.orderly hnone)
  rcases Body.exists_depth (fun b hb => h.walk_code hflawless hb) h.entries_zero_add with
    ⟨depth, -, hdepth⟩
  let target := source.compiler.code.leadsTo
  refine ⟨bs.map (Body.toMethodCode target), ?_, ?_, h.decode_code, depth, fun m hm => ?_,
    fun a ha => ?_⟩
  · rw [Body.map_decl_toMethodCode, h.decls]
  · rw [Body.map_info_toMethodCode, ← h.debug]
  · rcases List.mem_map.1 hm with ⟨b, hb, rfl⟩
    exact h.balanced hflawless hb (hdepth b hb) hsize
  · rw [h.located_items] at ha
    rcases List.mem_flatMap.1 ha with ⟨b, hb, ha⟩
    rcases Compiled.exists_behind ha (fun _ _ => Item.noConfusion)
      ((hdepth b hb a _ ha).of_statement) target with ⟨j, hj, hpc, -⟩
    refine ⟨⟨j, List.mem_flatMap.2 ⟨_, List.mem_map_of_mem hb, hj⟩, Int.ofNat.inj hpc⟩, ?_⟩
    exact (hdepth b hb a _ ha).of_statement

end TokenSource

end MicroJava
