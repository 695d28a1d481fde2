import Mathlib.Algebra.Group.Nat.Defs
import Mathlib.Data.List.Nodup
import MicroJava.Proofs.Completion
import MicroJava.Proofs.Decoding
import MicroJava.Proofs.Reports

/-!
# The code of an image, method by method

The code of every image can be decoded, and its instructions are those of the methods one after the
other. Each method begins with `enter` at its entry and ends with `exit` and `return` or with a trap
(`MethodCode.Delimited`); its jumps lead to its own instructions, and its calls to entries of
methods, unless the way is too far to be written down (`TokenSource.compile_decodes`).
-/

namespace MicroJava

open MicroJava.Tree

/-- A method in an image: its tree, its debug information and its instructions. -/
structure MethodCode where
  decl : MethodDecl
  info : MethodInfo
  code : List Instruction

/-- The operations of a method with the values of their operands. -/
def MethodCode.operations (m : MethodCode) : List Operation :=
  m.code.map fun i => (i.op, i.operands)

/-- A method begins with `enter` at its entry, and it ends by leaving or with a trap. -/
structure MethodCode.Delimited (m : MethodCode) : Prop where
  starts : ∃ operands rest, m.code = ⟨m.info.entry.toNat, .enter, operands⟩ :: rest
  ends : [(.exit, []), (.ret, [])] <:+ m.operations ∨ [(.trap, [1])] <:+ m.operations

namespace Body

variable {target : Nat → Label → Int} {b : Body}

/-- The method in an image whose code was made from the body. -/
def toMethodCode (target : Nat → Label → Int) (b : Body) : MethodCode where
  decl := b.decl
  info := b.info
  code := (Item.instructions target b.method.entry b.code).map Instruction.readBack

@[simp] theorem map_decl_toMethodCode (target : Nat → Label → Int) (bs : List Body) :
    (bs.map (toMethodCode target)).map MethodCode.decl = bs.map decl := by
  rw [List.map_map]
  rfl

@[simp] theorem map_info_toMethodCode (target : Nat → Label → Int) (bs : List Body) :
    (bs.map (toMethodCode target)).map MethodCode.info = bs.map info := by
  rw [List.map_map]
  rfl

/-- The items of several bodies stand one after the other. -/
theorem located_flatMap {pc : Nat} {bs : List Body}
    (h : ∀ bs₁ b bs₂, bs = bs₁ ++ b :: bs₂ →
      b.method.entry = pc + Item.codeSize (bs₁.flatMap code)) :
    Item.located pc (bs.flatMap code) = bs.flatMap fun b => Item.located b.method.entry b.code := by
  induction bs generalizing pc with
  | nil => rfl
  | cons b bs ih =>
      have hentry : b.method.entry = pc := h [] b bs rfl
      rw [List.flatMap_cons, List.flatMap_cons, Item.located_append, hentry, ih]
      intro bs₁ b' bs₂ heq
      rw [h (b :: bs₁) b' bs₂ (by rw [heq]; rfl), List.flatMap_cons, Item.codeSize_append,
        Nat.add_assoc]

/-- The items of a method up to its end. -/
def front (b : Body) : List Item :=
  .instruction .enter [b.method.parameterCount, b.localCount] :: b.items

theorem code_of_void (h : b.method.result = .void) :
    b.code = b.front ++ [(.exit, []), (.ret, [])].map Operation.item := by
  rw [code, endCode, if_pos h]
  rfl

theorem code_of_ne_void (h : b.method.result ≠ .void) :
    b.code = b.front ++ [(.trap, [1])].map Operation.item := by
  rw [code, endCode, if_neg h]
  rfl

/-- The last item of a body leaves the method. -/
theorem exists_code_eq_concat (b : Body) : ∃ front op operands,
    b.code = front ++ [.instruction op operands] ∧ (op = .ret ∨ op = .trap) := by
  by_cases h : b.method.result = .void
  · refine ⟨b.front ++ [.instruction .exit []], .ret, [], ?_, .inl rfl⟩
    rw [b.code_of_void h, List.append_assoc]
    rfl
  · exact ⟨b.front, .trap, [1], b.code_of_ne_void h, .inr rfl⟩

/-- Behind an item that does not leave the method stands an instruction of the method. -/
theorem exists_instruction_behind {a : Nat} {i : Item}
    (h : (a, i) ∈ Item.located b.method.entry b.code)
    (hi : ∀ op operands, i = .instruction op operands → op ≠ .ret ∧ op ≠ .trap) :
    ∃ j ∈ Item.instructions target b.method.entry b.code, j.pc = a + i.size := by
  rcases Item.exists_append_of_mem_located h with ⟨before, after, hcode, rfl⟩
  rcases b.exists_code_eq_concat with ⟨front, op, operands, hlast, hop⟩
  have hpos : 0 < Item.codeSize after := by
    rw [hcode] at hlast
    rcases List.eq_nil_or_concat after with rfl | ⟨after, j, rfl⟩
    · have hleaves := hi op operands (List.singleton_inj.1 (List.append_inj' hlast rfl).2)
      exact absurd hop (not_or.2 hleaves)
    · rw [List.concat_eq_append, ← List.cons_append, ← List.append_assoc] at hlast
      rw [List.singleton_inj.1 (List.append_inj' hlast rfl).2, List.concat_eq_append,
        Item.codeSize_append]
      apply Nat.add_pos_right _
      change 0 < 1 + _ + 0
      omega
  rcases Item.exists_mem_instructions target _ hpos with ⟨j, hj, hpc⟩
  refine ⟨j, ?_, hpc.trans (Nat.add_assoc _ _ _).symm⟩
  rw [hcode, List.append_cons, Item.instructions_append, Item.codeSize_append, Item.codeSize_cons]
  exact List.mem_append_right _ hj

theorem delimited (h : b.method.entry < 2 ^ 32) : (b.toMethodCode target).Delimited := by
  refine ⟨?_, ?_⟩
  · have hentry : b.info.entry.toNat = b.method.entry := by
      change (UInt32.ofNat b.method.entry).toNat = _
      rw [UInt32.toNat_ofNat', Nat.mod_eq_of_lt h]
    rw [toMethodCode, hentry]
    exact ⟨_, _, rfl⟩
  · have hends : ∀ (os : List Operation) (front : List Item), b.code = front ++ os.map Operation.item →
        ((Item.instructions target (b.method.entry + Item.codeSize front) (os.map Operation.item)).map
          Instruction.readBack).map (fun i => (i.op, i.operands)) <:+
            (b.toMethodCode target).operations := by
      intro os front hcode
      rw [MethodCode.operations, toMethodCode, hcode, Item.instructions_append, List.map_append,
        List.map_append]
      exact List.suffix_append _ _
    by_cases h : b.method.result = .void
    · exact .inl (hends [(.exit, []), (.ret, [])] b.front (b.code_of_void h))
    · exact .inr (hends [(.trap, [1])] b.front (b.code_of_ne_void h))

end Body

/-- The jumps of a method lead to its instructions and the calls to methods. The way is written in
the code if it is not too far. -/
def MethodCode.Leading (is : List Item) (ms : List MethodCode) (m : MethodCode) : Prop :=
  ∀ i ∈ m.code, i.op.hasTarget = true → ∃ t, Item.Leads is i.pc t ∧
    (Emitter.isFar (t - i.pc) = false → i.target? = some t) ∧
    (i.op.isJump = true → ∃ j ∈ m.code, (j.pc : Int) = t) ∧
    (i.op = .call → ∃ m' ∈ ms, (m'.info.entry.toNat : Int) = t)

namespace Compiled

variable {ms : List Member} {bs : List Body} {s : Compiler} {b : Body}

theorem entries_zero_add (h : Compiled ms bs s) (bs₁ : List Body) (b : Body) (bs₂ : List Body)
    (heq : bs = bs₁ ++ b :: bs₂) : b.method.entry = 0 + Item.codeSize (bs₁.flatMap Body.code) := by
  rw [h.entries bs₁ b bs₂ heq, Nat.zero_add]

/-- The items of the code are those of the bodies. -/
theorem located_items (h : Compiled ms bs s) : Item.located 0 s.items.toList =
    bs.flatMap fun b => Item.located b.method.entry b.code := by
  rw [h.items, Body.located_flatMap h.entries_zero_add]

/-- An item of a body stands where it does in the whole code. -/
theorem mem_located (h : Compiled ms bs s) (hb : b ∈ bs) {a : Nat} {i : Item}
    (hi : (a, i) ∈ Item.located b.method.entry b.code) : (a, i) ∈ Item.located 0 s.items.toList := by
  rw [h.located_items]
  exact List.mem_flatMap.2 ⟨b, hb, hi⟩

/-- Methods begin inside the code. -/
theorem entry_lt (h : Compiled ms bs s) (hb : b ∈ bs) : b.method.entry < s.code.code.size := by
  have hbounds := Item.bounds_of_mem_located (h.mem_located hb List.mem_cons_self)
  have hsize : s.code.code.size = Item.codeSize s.items.toList := h.sound.assembles.pc_eq
  have henter : 0 < (Item.instruction .enter [b.method.parameterCount, b.localCount]).size :=
    Item.size_jump_pos .enter 0
  omega

/-- A jump of a body leads to where its label stands in the same body. -/
theorem exists_place (h : Compiled ms bs s) (hb : b ∈ bs) {a : Nat} {op : Opcode} {l : Label}
    (hj : (a, .jump op l) ∈ Item.located b.method.entry b.code) :
    ∃ t : Nat, (t, .place l) ∈ Item.located b.method.entry b.code ∧ s.code.leadsTo a l = t := by
  have hitems : .jump op l ∈ b.items := by
    rcases List.mem_cons.1 (Item.mem_of_mem_located hj) with heq | hmem
    · exact Item.noConfusion heq
    · refine (List.mem_append.1 hmem).resolve_right fun hend => ?_
      rcases List.mem_map.1 hend with ⟨o, _, ho⟩
      exact Item.noConfusion ho
  have hplace : .place l ∈ b.code :=
    List.mem_cons_of_mem _ (List.mem_append_left _ (h.closed b hb op l hitems))
  rcases Item.exists_mem_located b.method.entry hplace with ⟨t, ht⟩
  refine ⟨t, ht, ?_⟩
  rw [Emitter.leadsTo, (h.sound.assembles.placed l t).2 (h.mem_located hb ht), Option.getD_some]

theorem info_entry (h : Compiled ms bs s) (hsize : s.code.code.size < 2 ^ 31) (hb : b ∈ bs) :
    b.info.entry.toNat = b.method.entry := by
  have hlt := h.entry_lt hb
  change (UInt32.ofNat b.method.entry).toNat = _
  rw [UInt32.toNat_ofNat', Nat.mod_eq_of_lt (by omega)]

theorem leading (h : Compiled ms bs s) (hsize : s.code.code.size < 2 ^ 31) (hb : b ∈ bs) :
    (b.toMethodCode s.code.leadsTo).Leading s.items.toList
      (bs.map (Body.toMethodCode s.code.leadsTo)) := by
  intro i hi hop
  rcases List.mem_map.1 hi with ⟨j, hj, rfl⟩
  rcases Item.mem_instructions.1 hj with ⟨a, item, hitem, hinstruction⟩
  have hmem := h.mem_located hb hitem
  cases item with
  | instruction op operands =>
      cases hinstruction
      have hwell := h.sound.assembles.wellFormed _ (Item.mem_of_mem_located hmem)
      exact absurd (hwell.1.symm.trans hop) Bool.false_ne_true
  | jump op l =>
      cases hinstruction
      rcases h.exists_place hb hitem with ⟨t, ht, hleads⟩
      refine ⟨t, .jump hmem (h.mem_located hb ht), fun hnear => ?_, fun _ => ?_, fun hcall => ?_⟩
      · rw [hleads]
        exact Instruction.target?_readBack hop hnear
      · rcases Body.exists_instruction_behind ht fun _ _ => Item.noConfusion with ⟨j, hj, hpc⟩
        exact ⟨j.readBack, List.mem_map_of_mem hj, congrArg Nat.cast hpc⟩
      · have hjump : op.isJump = true := h.sound.assembles.wellFormed _ (Item.mem_of_mem_located hmem)
        change op = .call at hcall
        rw [hcall] at hjump
        cases hjump
  | call address =>
      cases hinstruction
      refine ⟨address, .call hmem, fun hnear => Instruction.target?_readBack hop hnear,
        fun hjump => absurd hjump Bool.false_ne_true, fun _ => ?_⟩
      rcases h.calls address (Item.mem_of_mem_located hmem) with ⟨b', hb', hentry⟩
      refine ⟨_, List.mem_map_of_mem hb', ?_⟩
      rw [← hentry]
      exact congrArg Nat.cast (h.info_entry hsize hb')
  | _ => cases hinstruction

/-- The instructions of the code are those of its methods. -/
theorem decode_code (h : Compiled ms bs s) : Instruction.decode s.code.code.toList =
    .ok ((bs.map (Body.toMethodCode s.code.leadsTo)).flatMap MethodCode.code).toArray := by
  have hinstructions : Item.instructions s.code.leadsTo 0 s.items.toList =
      bs.flatMap fun b => Item.instructions s.code.leadsTo b.method.entry b.code := by
    rw [Item.instructions, h.located_items, List.filterMap_flatMap]
    rfl
  rw [h.sound.assembles.code, Instruction.decode_bytes h.sound.assembles.wellFormed, hinstructions,
    List.map_flatMap, List.flatMap_map]
  rfl

/-- Execution begins at a method called `main`, if there is one. -/
theorem entry_eq (h : Compiled ms bs s) (hsize : s.code.code.size < 2 ^ 31) :
    (s.code.entry = none ∧ (s.code.entry.map Int32.ofNat).getD (-1) = -1) ∨
      ∃ b ∈ bs, b.method.name = mainName ∧
        ((s.code.entry.map Int32.ofNat).getD (-1)).toInt = b.info.entry.toNat := by
  cases hstart : s.code.entry with
  | none => exact .inl ⟨rfl, rfl⟩
  | some a =>
      rcases h.start a hstart with ⟨b, hb, hname, rfl⟩
      have hlt := (h.entry_lt hb).trans hsize
      refine .inr ⟨b, hb, hname, ?_⟩
      rw [h.info_entry hsize hb]
      exact Int32.toInt_ofNat_of_lt hlt

end Compiled

/-- Execution begins at the only method called `main`, which returns nothing and takes nothing. -/
def MethodCode.BeginsAt (ms : List MethodCode) (entry : Int) : Prop :=
  ∃ before m after, ms = before ++ m :: after ∧ m.info.name = mainName ∧
    (∀ m' ∈ before ++ after, m'.info.name ≠ mainName) ∧ entry = m.info.entry.toNat ∧
    m.decl.type = none ∧ m.decl.parameters = []

namespace TokenSource

/-- The code of every image can be decoded method by method. Execution begins at an `enter`, if
anywhere, jumps stay in their method and calls lead to methods. Without diagnostics every way is
written down, and execution begins at the only method called `main`. -/
theorem compile_decodes (source : TokenSource) (minDistance : Nat) :
    ∃ c, source.compile minDistance = .ok c ∧ (c.image.code.size < 2 ^ 31 →
      ∃ ms : List MethodCode,
        ms.map MethodCode.decl = (Program.read source.tokens).members.filterMap Member.method? ∧
        ms.map MethodCode.info = c.debug.methods.toList ∧
        Instruction.decode c.image.code.toList = .ok (ms.flatMap MethodCode.code).toArray ∧
        (∀ m ∈ ms, m.Delimited ∧ m.Leading source.compiler.items.toList ms) ∧
        (c.image.entry = -1 ∨
          ∃ i ∈ ms.flatMap MethodCode.code, i.op = .enter ∧ c.image.entry.toInt = i.pc) ∧
        (c.diagnostics = #[] →
          (∀ a t, Item.Leads source.compiler.items.toList a t → Emitter.isFar (t - a) = false) ∧
          MethodCode.BeginsAt ms c.image.entry.toInt)) := by
  rcases source.compiled_compiler with ⟨bs, h, hmain⟩
  refine ⟨_, source.compile_eq_ok minDistance, fun hsize => ?_⟩
  have hsize : source.compiler.code.code.size < 2 ^ 31 := hsize
  have hentry_lt : ∀ b ∈ bs, b.method.entry < 2 ^ 32 :=
    fun b hb => (h.entry_lt hb).trans (hsize.trans (by decide))
  let target := source.compiler.code.leadsTo
  refine ⟨bs.map (Body.toMethodCode target), ?_, ?_, h.decode_code, fun m hm => ?_, ?_,
    fun hnone => ?_⟩
  · rw [Body.map_decl_toMethodCode, h.decls]
  · rw [Body.map_info_toMethodCode, ← h.debug]
  · rcases List.mem_map.1 hm with ⟨b, hb, rfl⟩
    exact ⟨Body.delimited (hentry_lt b hb), h.leading hsize hb⟩
  · rcases h.entry_eq hsize with ⟨-, hentry⟩ | ⟨b, hb, -, hentry⟩
    · exact .inl hentry
    · have hdelimited : (b.toMethodCode target).Delimited := Body.delimited (hentry_lt b hb)
      rcases hdelimited.starts with ⟨operands, rest, hcode⟩
      refine .inr ⟨⟨b.info.entry.toNat, .enter, operands⟩,
        List.mem_flatMap.2 ⟨_, List.mem_map_of_mem hb, ?_⟩, rfl, hentry⟩
      rw [hcode]
      exact List.mem_cons_self
  · have hclean := not_faulty h.orderly hnone
    have hflawless := h.flawless hclean
    refine ⟨hflawless.near, ?_⟩
    rcases h.entry_eq hsize with ⟨hstart, -⟩ | ⟨b, hb, hname, hentry⟩
    · exact absurd hstart (hmain hclean)
    · have hvoid := hflawless.main b hb hname
      have hdecl := (hflawless.void b hb).1 hvoid.1
      have hparameters := h.parameters b hb hvoid.2
      rcases List.append_of_mem hb with ⟨bs₁, bs₂, rfl⟩
      refine ⟨bs₁.map (Body.toMethodCode target), b.toMethodCode target,
        bs₂.map (Body.toMethodCode target), by simp, hname, ?_, hentry, hdecl, hparameters⟩
      have hnames := hflawless.names
      rw [List.map_append, List.map_cons, List.nodup_middle, ← List.map_append] at hnames
      intro m' hm' heq
      rw [← List.map_append] at hm'
      rcases List.mem_map.1 hm' with ⟨b', hb', rfl⟩
      exact (List.nodup_cons.1 hnames).1 (List.mem_map.2 ⟨b', hb', heq.trans hname.symm⟩)

end TokenSource

end MicroJava
