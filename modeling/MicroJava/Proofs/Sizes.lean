import MicroJava.Proofs.Bodies
import MicroJava.Proofs.Faultless
import MicroJava.Proofs.MethodCode
import MicroJava.Proofs.Ranges

/-!
# Nothing of an operand is lost

Without diagnostics the code of a source is decoded to the very instructions that were written for it,
operands included, and these are in range: `enter` has the numbers of parameters and variables of its
method, variables and fields are within the numbers of their method, program or class, an object has
all the fields of its class, and the way of every jump and call is short enough
(`TokenSource.compile_fits`).
-/

namespace MicroJava

open MicroJava.Tree

/-! ### From items to operations -/

namespace Item

/-- The operations of the instructions that are no jumps are those of the items that are none. -/
theorem filter_operations {target : Nat → Label → Int} {pc : Nat} {is : List Item}
    (h : ∀ i ∈ is, i.WellFormed) :
    ((instructions target pc is).map fun i => (i.op, i.operands)).filter (fun o => !o.1.isJump) =
      (is.filter isPlain).filterMap operation? := by
  induction is generalizing pc with
  | nil => rfl
  | cons i is ih =>
      have hi := h i List.mem_cons_self
      rw [instructions_cons, List.map_append, List.filter_append, ih fun j hj => h j (List.mem_cons_of_mem i hj)]
      cases i with
      | instruction op operands =>
          have hjump : op.isJump = false := (Bool.or_eq_false_iff.1 hi.1).1
          simp [instruction?, operation?, List.filter_cons, hjump]
      | jump op l =>
          have hjump : op.isJump = true := hi
          simp [instruction?, hjump]
      | call address => simp [instruction?, operation?, List.filter_cons, Opcode.isJump]
      | _ => simp [instruction?]

end Item

/-! ### Methods of a program without faults -/

/-- A method was compiled without a fault after the state `s`, in which everything was ready for it, and
it added its body. `P` holds of its literals. -/
structure Tree.Prepared (P : Int → Prop) (p : Program) (s : Compiler) (d : MethodDecl) (b : Body) :
    Prop where
  sound : s.Sound
  ready : p.Ready P s
  adds : Adds d s b (d.compile s).2
  clean : ¬ (d.compile s).2.Faulty
  literals : StatementLiterals P d.body

namespace Tree

variable {P : Int → Prop} {p : Program} {s : Compiler} {d : MethodDecl} {b : Body} {bs : List Body}

/-- So is every method of a program without faults. -/
theorem prepared_of_adds (hzero : P 0) (hliterals : p.Literals P) (hclean : ¬ (p.compile .initial).2.Faulty)
    {before after : List Member} (heq : p.members = before ++ .method d :: after)
    (hb : Adds d (before.forM Member.compile (p.compileHead .initial).2).2 b
      (d.compile (before.forM Member.compile (p.compileHead .initial).2).2).2) :
    Prepared P p (p.after before.length) d b := by
  have hcompile := MethodDecl.not_faulty_compile heq hclean
  rw [← p.after_eq heq] at hb
  have hafter : ¬ (p.after before.length).Faulty := mt hb.log.faulty hcompile
  exact ⟨p.sound_after before.length, p.ready_after hzero hliterals.declarations before.length hafter, hb,
    hcompile, hliterals.members d (heq ▸ List.mem_append_right _ List.mem_cons_self)⟩

theorem AddsAll.exists_prepared (hzero : P 0) (hliterals : p.Literals P)
    (hclean : ¬ (p.compile .initial).2.Faulty) (h : AddsAll p.members (p.compileHead .initial).2 bs)
    (hb : b ∈ bs) : ∃ s d, Prepared P p s d b := by
  obtain ⟨before, d, after, heq, hadds⟩ := h.exists_split hb
  exact ⟨_, d, prepared_of_adds hzero hliterals hclean heq hadds⟩

namespace Prepared

theorem not_faulty_compileHead (h : Prepared P p s d b) : ¬ (d.compileHead s).2.Faulty := by
  obtain ⟨-, -, hclean, -⟩ := h.adds.writes h.sound h.clean
  exact mt (emits_compileStatements none (d.compileHead s).1.result d.body (d.compileHead s).2).logs.faulty
    hclean

/-- The statements make their plain code, and their code is valid. -/
theorem plain (h : Prepared P p s d b) :
    b.items.filter Item.isPlain = plainOfStatements (d.compileHead s).2.table d.body ∧
      ValidStatements (d.compileHead s).2.table d.body := by
  obtain ⟨-, -, hclean, hw⟩ := h.adds.writes h.sound h.clean
  obtain ⟨_, ht⟩ := d.headed_compileHead h.sound
  obtain ⟨-, -, hmakes⟩ := makes_plain_compileStatements ht.sound.table none (d.compileHead s).1.result d.body
    (d.compileHead s).2 (.refl _)
  obtain ⟨is, hw', hplain⟩ := hmakes hclean
  obtain rfl := hw.unique hw'
  exact hplain

end Prepared

end Tree

/-! ### Bodies -/

/-- What is known of a body that was compiled without a fault, in the table of its statements. -/
structure Body.Fits (p : Program) (t : SymbolTable) (b : Body) : Prop where
  ranged : t.Ranged IsWord b.decl.variableCount p.variableCount
  classed : t.Classed p.HasClass
  parameters : b.method.parameterCount = b.decl.parameters.length
  locals : b.localCount = b.decl.variableCount
  small : b.decl.variableCount ≤ maxLocals
  globals : p.variableCount ≤ maxGlobals
  plain : b.items.filter Item.isPlain = plainOfStatements t b.decl.body
  valid : ValidStatements t b.decl.body
  literals : StatementLiterals IsWord b.decl.body
  void : b.method.result = .void ↔ b.decl.type = none

theorem Tree.Prepared.fits {p : Program} {s : Compiler} {d : MethodDecl} {b : Body}
    (h : Prepared IsWord p s d b) : b.Fits p (d.compileHead s).2.table := by
  have hzero : IsWord 0 := isWord_wrapWord 0
  have hhead := h.not_faulty_compileHead
  obtain ⟨hparameters, hlocals, -, -⟩ := h.adds.writes h.sound h.clean
  obtain ⟨hslotted, hclassed, hinside⟩ := d.inside_compileHead hzero h.ready hhead
  obtain ⟨-, hsmall, -⟩ := (d.relates_compileHead (P := IsWord) (Q := p.HasClass) hzero s).2 hhead
  obtain ⟨hplain, hvalid⟩ := h.plain
  obtain rfl := h.adds.decl
  exact ⟨⟨isWord_wrapWord, hslotted, hinside⟩, hclassed, hparameters, hlocals, hsmall, h.ready.small,
    hplain, hvalid, h.literals, h.adds.void h.clean⟩

namespace Body.Fits

variable {p : Program} {t : SymbolTable} {b : Body}

/-- The plain code of a method. -/
theorem filter_code (h : b.Fits p t) : b.code.filter Item.isPlain =
    .instruction .enter [b.decl.parameters.length, b.decl.variableCount] ::
      (plainOfStatements t b.decl.body ++ (endCode b.method.result).map Operation.item) := by
  have hend : ((endCode b.method.result).map Operation.item).filter Item.isPlain =
      (endCode b.method.result).map Operation.item :=
    List.filter_eq_self.2 fun i hi => by
      obtain ⟨o, -, rfl⟩ := List.mem_map.1 hi
      rfl
  rw [Body.code, List.filter_cons_of_pos rfl, List.filter_append, h.plain, hend, h.parameters, h.locals]

/-- The operands of a method are in range. -/
theorem inRange (h : b.Fits p t) (hcount : b.method.parameterCount ≤ b.localCount) :
    AllInRange IsWord t b.decl.variableCount p.variableCount (b.code.filter Item.isPlain) := by
  have henter : AllInRange IsWord t b.decl.variableCount p.variableCount
      [.instruction .enter [b.decl.parameters.length, b.decl.variableCount]] :=
    .single ⟨b.decl.parameters.length, rfl, by rwa [← h.parameters, ← h.locals]⟩
  have hend : AllInRange IsWord t b.decl.variableCount p.variableCount
      ((endCode b.method.result).map Operation.item) := by
    unfold endCode
    split
    · exact .append (.of_operation (o := (.exit, [])) rfl) (.of_operation (o := (.ret, [])) rfl)
    · exact .of_operation (o := (.trap, [1])) rfl
  rw [h.filter_code]
  exact henter.append ((inRange_plainOfStatements h.ranged _ h.valid h.literals).append hend)

end Body.Fits

/-- The code of a method is that of its tree, the jumps apart, and its operands are in range. Objects
have all fields that their class declares. -/
structure MethodCode.Sized (p : Program) (t : SymbolTable) (m : MethodCode) : Prop where
  operations : m.operations.filter (fun o => !o.1.isJump) =
    (.enter, [(m.decl.parameters.length : Int), (m.decl.variableCount : Int)]) ::
      ((plainOfStatements t m.decl.body).filterMap Item.operation? ++
        if m.decl.type = none then [(.exit, []), (.ret, [])] else [(.trap, [1])])
  count : m.decl.variableCount ≤ maxLocals
  inRange : ∀ o ∈ m.operations, o.InRange IsWord t m.decl.variableCount p.variableCount
  classes : ∀ name type, t.type? name = some type → type.shape = .object →
    ∃ c : ClassDecl, .object c ∈ p.declarations ∧ c.name = name ∧
      (t.fields type).size = variableCount c.fields ∧ variableCount c.fields ≤ maxFields
  fields : ∀ (d : Designator) (name : Option String) (offset : Int),
    ((Designator.field d name).place t).location = .field offset →
      0 ≤ offset ∧ offset < (t.fields (d.place t).type).size

namespace Compiled

variable {ms : List Member} {bs : List Body} {s : Compiler} {b : Body} {p : Program} {t : SymbolTable}

/-- The instructions of a body are read back as they were written. -/
theorem readBack_eq (h : Compiled ms bs s) (hnear : ∀ a t, Item.Leads s.items.toList a t →
      Emitter.isFar (t - a) = false) (hb : b ∈ bs) (hfits : b.Fits p t) :
    ∀ i ∈ Item.instructions s.code.leadsTo b.method.entry b.code, i.readBack = i := by
  intro i hi
  obtain ⟨a, item, hitem, hinstruction⟩ := Item.mem_instructions.1 hi
  have hmem := h.mem_located hb hitem
  have hwell := h.sound.assembles.wellFormed _ (Item.mem_of_mem_located hmem)
  have hway {op : Opcode} {t : Int} (hop : op.hasTarget = true) (hleads : Item.Leads s.items.toList a t) :
      Operation.Keeps a (op, [t]) := by
    rw [Operation.Keeps, Instruction.immediates_of_hasTarget hop]
    exact .cons (hnear a t hleads) .nil
  refine Instruction.readBack_eq ?_
  cases item with
  | instruction op operands =>
      cases hinstruction
      have hplain : .instruction op operands ∈ b.code.filter Item.isPlain :=
        List.mem_filter.2 ⟨Item.mem_of_mem_located hitem, rfl⟩
      have hrange := hfits.inRange (h.counts b hb) _ hplain (op, operands) rfl
      exact hrange.keeps hfits.ranged.slotted hfits.small hfits.globals hwell.1 a
  | jump op l =>
      cases hinstruction
      obtain ⟨t, ht, hleads⟩ := h.exists_place hb hitem
      rw [hleads]
      have hjump : op.isJump = true := hwell
      exact hway (by rw [Opcode.hasTarget, hjump]; rfl) (.jump hmem (h.mem_located hb ht))
  | call address =>
      cases hinstruction
      exact hway rfl (.call hmem)
  | _ => cases hinstruction

theorem sized (h : Compiled ms bs s) (hnear : ∀ a t, Item.Leads s.items.toList a t →
      Emitter.isFar (t - a) = false) (hb : b ∈ bs) (hfits : b.Fits p t) :
    (b.toMethodCode s.code.leadsTo).Sized p t := by
  have hcode : (b.toMethodCode s.code.leadsTo).code =
      Item.instructions s.code.leadsTo b.method.entry b.code :=
    (List.map_congr_left (h.readBack_eq hnear hb hfits)).trans (List.map_id _)
  have hwell : ∀ i ∈ b.code, i.WellFormed := fun i hi => h.sound.assembles.wellFormed i <| by
    rw [h.items]
    exact List.mem_flatMap.2 ⟨b, hb, hi⟩
  have hoperations : (b.toMethodCode s.code.leadsTo).operations.filter (fun o => !o.1.isJump) =
      (b.code.filter Item.isPlain).filterMap Item.operation? := by
    rw [MethodCode.operations, hcode, Item.filter_operations hwell]
  refine ⟨?_, hfits.small, fun o ho => ?_, fun name type htype hshape => ?_, fun d name offset hplace => ?_⟩
  · have hend : ((endCode b.method.result).map Operation.item).filterMap Item.operation? =
        if b.decl.type = none then [(.exit, []), (.ret, [])] else [(.trap, [1])] := by
      rw [endCode]
      by_cases hvoid : b.method.result = .void
      · rw [if_pos hvoid, if_pos (hfits.void.1 hvoid)]
        rfl
      · rw [if_neg hvoid, if_neg (hfits.void.not.1 hvoid)]
        rfl
    have henter : Item.operation? (.instruction .enter [b.decl.parameters.length, b.decl.variableCount]) =
        some (.enter, [(b.decl.parameters.length : Int), (b.decl.variableCount : Int)]) := rfl
    rw [hoperations, hfits.filter_code, List.filterMap_cons_some henter, List.filterMap_append, hend]
    rfl
  · by_cases hjump : o.1.isJump = true
    · exact Operation.inRange_of_isJump hjump
    · have hplain : o ∈ (b.toMethodCode s.code.leadsTo).operations.filter fun o => !o.1.isJump :=
        List.mem_filter.2 ⟨ho, by simpa using hjump⟩
      rw [hoperations] at hplain
      obtain ⟨i, hi, hio⟩ := List.mem_filterMap.1 hplain
      exact hfits.inRange (h.counts b hb) i hi o hio
  · obtain ⟨n, rfl, c, hc, hname, hcount⟩ := hfits.classed.fields_of_type? htype hshape
    exact ⟨c, hc, hname, hcount, hcount ▸ hfits.ranged.slotted.size_fields_le type⟩
  · cases hx : t.fieldOperand? (d.place t).type name with
    | none =>
        rw [Designator.place, hx] at hplace
        cases hplace
    | some x =>
        obtain ⟨k, hk, hlt, -⟩ := hfits.ranged.slotted.exists_field hx
        rw [Designator.place, hx, Option.getD_some, hk] at hplace
        obtain rfl := Location.field.inj hplace
        exact ⟨Int.natCast_nonneg k, Int.ofNat_lt.2 hlt⟩

/-- The whole code is decoded to what was written. -/
theorem decode_eq (h : Compiled ms bs s) (hnear : ∀ a t, Item.Leads s.items.toList a t →
      Emitter.isFar (t - a) = false) (hfits : ∀ b ∈ bs, ∃ t, b.Fits p t) :
    Instruction.decode s.code.code.toList =
      .ok (Item.instructions s.code.leadsTo 0 s.items.toList).toArray := by
  have hsame : ∀ i ∈ Item.instructions s.code.leadsTo 0 s.items.toList, i.readBack = i := by
    intro i hi
    obtain ⟨a, item, hitem, hinstruction⟩ := Item.mem_instructions.1 hi
    rw [h.located_items] at hitem
    obtain ⟨b, hb, hitem⟩ := List.mem_flatMap.1 hitem
    obtain ⟨t, ht⟩ := hfits b hb
    exact h.readBack_eq hnear hb ht i (Item.mem_instructions.2 ⟨a, item, hitem, hinstruction⟩)
  rw [h.sound.assembles.code, Instruction.decode_bytes h.sound.assembles.wellFormed,
    (List.map_congr_left hsame).trans (List.map_id _)]

end Compiled

/-- The operand of every jump and call is read from the code as the address that it leads to: the one
of its label, in the same method, or the entry of a method. -/
def MethodCode.Led (is : List Item) (ms : List MethodCode) (m : MethodCode) : Prop :=
  ∀ i ∈ m.code, i.op.hasTarget = true → ∃ t, Item.Leads is i.pc t ∧ i.target? = some t ∧
    (i.op.isJump = true → ∃ j ∈ m.code, (j.pc : Int) = t) ∧
    (i.op = .call → ∃ m' ∈ ms, (m'.info.entry.toNat : Int) = t)

theorem MethodCode.Leading.led {is : List Item} {ms : List MethodCode} {m : MethodCode}
    (h : m.Leading is ms) (hnear : ∀ a t, Item.Leads is a t → Emitter.isFar (t - a) = false) :
    m.Led is ms := by
  intro i hi htarget
  obtain ⟨t, hleads, hread, hjump, hcall⟩ := h i hi htarget
  exact ⟨t, hleads, hread (hnear _ _ hleads), hjump, hcall⟩

/-! ### The values of tokens -/

namespace Lexeme

theorem isWord_of_le {n : Nat} (h : n ≤ maxNumber) : IsWord n := by
  have hmax : maxNumber = 2147483647 := rfl
  exact Int.bmod_eq_of_le (by omega) (by omega)

theorem isWord_toNat (c : Char) : IsWord c.toNat := by
  have hvalid : c.toNat < 0xd800 ∨ 0xdfff < c.toNat ∧ c.toNat < 0x110000 := c.valid
  have hmax : maxNumber = 2147483647 := rfl
  exact isWord_of_le (by omega)

theorem isWord_number (cs : List Char) : IsWord (number cs).value := by
  have hle (digits : List Char) (m n : Nat) (hm : m ≤ maxNumber)
      (h : digits.foldlM (fun n c => if n * 10 + digitValue c ≤ maxNumber then
        some (n * 10 + digitValue c) else none) m = some n) : n ≤ maxNumber := by
    induction digits generalizing m with
    | nil => exact Option.some.inj h ▸ hm
    | cons c digits ih =>
        rw [List.foldlM_cons] at h
        split at h
        · next hc => exact ih _ hc h
        · cases h
  unfold number
  dsimp only
  split
  · next n hn => exact isWord_of_le (hle _ 0 n (Nat.zero_le _) hn)
  · exact isWord_wrapWord 0

theorem isWord_charConst (cs : List Char) : IsWord (charConst cs).value := by
  have hquote (n : Nat) {v : Int} (hv : IsWord v) (faults : List Message) (cs : List Char) :
      IsWord (closeQuote n v faults cs).value := by
    unfold closeQuote
    split
    · exact hv
    · exact isWord_wrapWord 0
  fun_cases charConst cs with
  | case1 | case2 | case5 | case6 => exact isWord_wrapWord 0
  | case3 c cs d => exact hquote 3 (isWord_toNat d) [] cs
  | case4 c cs => exact hquote 3 (isWord_wrapWord 0) [.unknownEscape c] cs
  | case7 c cs => exact hquote 2 (isWord_toNat c) [] cs

theorem isWord_read (cs : List Char) : IsWord (read cs).value := by
  have hzero : IsWord 0 := isWord_wrapWord 0
  have hword (cs : List Char) : (word cs).value = 0 := by
    unfold word
    dsimp only
    split <;> rfl
  have hsymbol (c : Char) (cs : List Char) : (symbol c cs).value = 0 := by
    unfold symbol
    split <;> rfl
  cases cs with
  | nil => exact hzero
  | cons c cs =>
      rw [read]
      split
      · rwa [hword]
      · split
        · exact isWord_number _
        · split
          · exact isWord_charConst cs
          · rwa [hsymbol]

end Lexeme

namespace TokenSource

/-- The values of the tokens of a text are words. -/
theorem isWord_scan (text : String) : ∀ t ∈ (scan text).tokens, IsWord t.value := by
  have hreadings (p : Position) (cs : List Char) (acc : Array Reading)
      (hacc : ∀ r ∈ acc, IsWord r.token.value) : ∀ r ∈ Scan.readings p cs acc, IsWord r.token.value := by
    induction hn : cs.length using Nat.strongRecOn generalizing p cs acc with
    | ind n ih =>
        subst hn
        have hpush : ∀ r ∈ acc.push (Scan.step p cs).reading, IsWord r.token.value := by
          intro r hr
          rcases Array.mem_push.1 hr with hr | rfl
          · exact hacc r hr
          · exact Lexeme.isWord_read _
        rw [Scan.readings]
        split
        · exact hpush
        · next h => exact ih _ (Scan.length_rest_step_lt h) _ _ _ hpush rfl
  intro t ht
  obtain ⟨r, hr, rfl⟩ := List.mem_map.1 (List.takeWhile_subset _ ht)
  exact hreadings _ _ #[] (fun r hr => absurd hr (Array.not_mem_empty r)) r (Array.mem_toList_iff.1 hr)

/-- Without diagnostics, and if the values of all tokens are words, the code is decoded to the very
instructions that were written. All ways lead where they are meant to, and all other operands are what
the trees of the methods ask for and in range. -/
theorem compile_fits (source : TokenSource) (minDistance : Nat) :
    ∃ c, source.compile minDistance = .ok c ∧
      (c.diagnostics = #[] → c.image.code.size < 2 ^ 31 → (∀ t ∈ source.tokens, IsWord t.value) →
        c.image.dataSize.toInt = (Program.read source.tokens).variableCount ∧
        (Program.read source.tokens).variableCount ≤ maxGlobals ∧
        Instruction.decode c.image.code.toList = .ok (Item.instructions source.compiler.code.leadsTo 0
          source.compiler.items.toList).toArray ∧
        ∃ ms : List MethodCode,
          ms.map MethodCode.decl = (Program.read source.tokens).members.filterMap Member.method? ∧
          ms.map MethodCode.info = c.debug.methods.toList ∧
          Instruction.decode c.image.code.toList = .ok (ms.flatMap MethodCode.code).toArray ∧
          (∀ m ∈ ms, m.Led source.compiler.items.toList ms) ∧
          ∀ before d after, (Program.read source.tokens).members = before ++ .method d :: after →
            ∃ ms₁ m ms₂, ms = ms₁ ++ m :: ms₂ ∧
              ms₁.map MethodCode.decl = before.filterMap Member.method? ∧ m.decl = d ∧
              m.Sized (Program.read source.tokens)
                (d.compileHead ((Program.read source.tokens).after before.length)).2.table) := by
  let p := Program.read source.tokens
  obtain ⟨bs, hadds, h⟩ := p.compiled_addsAll
  refine ⟨_, source.compile_eq_ok minDistance, fun hnone hsize hwords => ?_⟩
  have hsize : source.compiler.code.code.size < 2 ^ 31 := hsize
  have hclean : ¬ source.compiler.Faulty := not_faulty h.orderly hnone
  have hnear := (h.flawless hclean).near
  have hliterals : p.Literals IsWord := Program.literals_read hwords
  have hzero : IsWord 0 := isWord_wrapWord 0
  have hbodies : ∀ b ∈ bs, ∃ t, b.Fits p t := fun b hb => by
    obtain ⟨_, _, hb⟩ := hadds.exists_prepared hzero hliterals hclean hb
    exact ⟨_, hb.fits⟩
  obtain ⟨hcount, hglobals⟩ := p.dataSize_compile hzero hliterals.declarations hclean
  refine ⟨?_, hglobals, ?_, bs.map (Body.toMethodCode source.compiler.code.leadsTo), ?_, ?_, h.decode_code,
    fun m hm => ?_, fun before d after heq => ?_⟩
  · have hlt : p.variableCount < 2 ^ 31 := hglobals.trans_lt (by decide)
    exact (congrArg (fun n => (Int32.ofNat n).toInt) hcount).trans (Int32.toInt_ofNat_of_lt hlt)
  · exact h.decode_eq hnear hbodies
  · rw [Body.map_decl_toMethodCode, h.decls]
  · rw [Body.map_info_toMethodCode]
    exact h.debug.symm
  · obtain ⟨b, hb, rfl⟩ := List.mem_map.1 hm
    exact (h.leading hsize hb).led hnear
  · obtain ⟨bs₁, b, bs₂, rfl, hdecls, hb⟩ := AddsAll.split (heq ▸ hadds)
    refine ⟨bs₁.map (Body.toMethodCode source.compiler.code.leadsTo),
      b.toMethodCode source.compiler.code.leadsTo,
      bs₂.map (Body.toMethodCode source.compiler.code.leadsTo), by simp, ?_, hb.decl,
      h.sized hnear (by simp) (prepared_of_adds hzero hliterals hclean heq hb).fits⟩
    rw [Body.map_decl_toMethodCode, hdecls]

/-- A program with a class, variables of the program and of a method, and a loop. -/
def countsUp : TokenSource := scan
  "program P class C \x7b int a, b; \x7d C c; \x7b void main() int i; \x7b
     c = new C; i = -500; while (i < 0) i++; c.b = i; \x7d \x7d"

/-- The program fits. -/
theorem compile_fits_countsUp : ∃ c, countsUp.compile 0 = .ok c ∧ c.diagnostics = #[] ∧
    c.image.code.size < 2 ^ 31 ∧ (∀ t ∈ countsUp.tokens, IsWord t.value) ∧ c.image.dataSize.toInt = 1 ∧
    ∃ ms : List MethodCode, Instruction.decode c.image.code.toList =
      .ok (ms.flatMap MethodCode.code).toArray ∧ ∀ m ∈ ms, m.Led countsUp.compiler.items.toList ms := by
  obtain ⟨c, hc, hfits⟩ := countsUp.compile_fits 0
  have hsmall : (countsUp.compile 0).toOption.all (fun c => decide (c.diagnostics = #[] ∧
      c.image.code.size < 2 ^ 31 ∧ (Program.read countsUp.tokens).variableCount = 1)) = true := by
    decide +kernel
  rw [hc] at hsmall
  obtain ⟨hnone, hsize, hcount⟩ : c.diagnostics = #[] ∧ c.image.code.size < 2 ^ 31 ∧
      (Program.read countsUp.tokens).variableCount = 1 := by
    simpa [Except.toOption] using hsmall
  obtain ⟨hdata, -, -, ms, -, -, hdecode, hled, -⟩ := hfits hnone hsize (isWord_scan _)
  exact ⟨c, hc, hnone, hsize, isWord_scan _, hdata.trans (congrArg Nat.cast hcount), ms, hdecode, hled⟩

end TokenSource

end MicroJava
