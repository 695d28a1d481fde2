import MicroJava.Listing
import MicroJava.Proofs.Balance
import MicroJava.Proofs.DebugNames
import MicroJava.Proofs.Sizes

/-!
# What a listing names

The debug information of a program agrees with its code: the entries of the methods grow from one to the
next, and at each of them stands an `enter` with the low bytes of the numbers of parameters and variables
(`MethodCode.Entered`). No jump leads to an entry, and inside a method no entry of another one is found
(`Compiled.entry_ne_of_inside`). So the listing of a program without faults is made of the lines of its
methods, each with the name of the method right before its `enter` (`MethodCode.lines`), and it names the
method that a call leads to and the variable that an instruction accesses
(`TokenSource.compile_names`). Blanks at the end of a line are left out.
-/

namespace MicroJava

open MicroJava.Tree

/-! ### Lines -/

/-- Blanks at the end of a text are those at the end of its last part. -/
theorem Text.trimEnd_append {s name : String} (h : trimEnd name ≠ "") :
    trimEnd (s ++ name) = s ++ trimEnd name := by
  have hsome : name.toList.reverse.dropWhile isBlank ≠ [] := by
    intro hnone
    rw [trimEnd, dropTrailingBlanks, hnone] at h
    exact h rfl
  have hreverse : dropTrailingBlanks (s ++ name).toList = s.toList ++ dropTrailingBlanks name.toList := by
    rw [dropTrailingBlanks, String.toList_append, List.reverse_append, List.dropWhile_append,
      if_neg (by rwa [List.isEmpty_iff]), List.reverse_append, List.reverse_reverse]
    rfl
  rw [trimEnd, hreverse, String.ofList_append, String.ofList_toList]
  rfl

namespace Listing

/-- The line of an instruction with this text behind its operation, and a line above it if a jump leads
there. -/
def line (targets : Std.TreeSet Int) (i : Instruction) (text : String) : String :=
  (if targets.contains i.pc then targetLine else "") ++ Text.zeroPadded 4 i.pc ++ " " ++
    (if targets.contains i.pc then "► " else "  ") ++ Text.spacePadded 12 i.op.name ++
    Text.trimEnd text ++ "\n"

variable {debug : DebugInfo} {targets : Std.TreeSet Int} {i : Instruction} {is : List Instruction}

/-- Where a method begins its name stands above the line. -/
theorem instructionText_of_entry {name : String} (h : debug.methodAt? i.pc = some name) :
    instructionText (some debug) targets i =
      "\n" ++ name ++ ":\n" ++ line targets i (operandText (some debug) i) := by
  simp [instructionText, line, h, String.append_assoc]

theorem instructionText_of_inside (h : debug.methodAt? i.pc = none) :
    instructionText (some debug) targets i = line targets i (operandText (some debug) i) := by
  simp [instructionText, line, h, String.append_assoc]

theorem ofImage_eq {image : Image} {is : Array Instruction}
    (h : Instruction.decode image.code.toList = .ok is) (debug : Option DebugInfo) :
    ofImage image debug = .ok (header image ++
      String.join (is.toList.map (instructionText debug (jumpTargets is.toList)))) := by
  rw [ofImage, h]
  rfl

/-- What holds after a fold did so before it, or was brought about by an element. -/
theorem exists_of_foldl {α β : Type} {f : β → α → β} {P : β → Prop} {Q : α → Prop} {as : List α} {b : β}
    (hstep : ∀ b a, P (f b a) → P b ∨ Q a) (h : P (as.foldl f b)) : P b ∨ ∃ a ∈ as, Q a := by
  induction as generalizing b with
  | nil => exact .inl h
  | cons a as ih =>
      rcases ih h with hfirst | ⟨a', ha', hQ⟩
      · exact (hstep b a hfirst).imp_right fun hQ => ⟨a, List.mem_cons_self, hQ⟩
      · exact .inr ⟨a', List.mem_cons_of_mem a ha', hQ⟩

/-- Only jumps have targets. -/
theorem exists_of_contains_jumpTargets {a : Int} (h : (jumpTargets is).contains a = true) :
    ∃ i ∈ is, i.op.isJump = true ∧ i.target? = some a := by
  have hfold : (∅ : Std.TreeSet Int).contains a = true ∨
      ∃ i ∈ is.filter (·.op.isJump), i.target? = some a := by
    rw [jumpTargets] at h
    refine exists_of_foldl (P := fun targets : Std.TreeSet Int => targets.contains a = true)
      (fun targets i hstep => ?_) h
    split at hstep
    · next b hb =>
        rw [Std.TreeSet.contains_insert, Bool.or_eq_true, beq_iff_eq,
          Std.LawfulEqCmp.compare_eq_iff_eq] at hstep
        rcases hstep with rfl | hstep
        · exact .inr hb
        · exact .inl hstep
    · exact .inl hstep
  rcases hfold with hempty | ⟨i, hi, ha⟩
  · simp at hempty
  · obtain ⟨hmem, hjump⟩ := List.mem_filter.1 hi
    exact ⟨i, hmem, hjump, ha⟩

/-- Behind the operation of an instruction stand the value of its operand and the name. Of a name that
has more than blanks only the blanks at its end are not shown. -/
structure Names (debug : DebugInfo) (i : Instruction) (value name : String) : Prop where
  text : operandText (some debug) i = value ++ " ; " ++ name
  shown : Text.trimEnd name ≠ "" →
    Text.trimEnd (operandText (some debug) i) = value ++ " ; " ++ Text.trimEnd name

theorem Names.of_text {value name : String} (h : operandText (some debug) i = value ++ " ; " ++ name) :
    Names debug i value name :=
  ⟨h, fun hname => by rw [h, Text.trimEnd_append hname]⟩

/-- A call names the method that begins where it leads to. -/
theorem names_call {a : Int} {name : String} (hop : i.op = .call) (ha : i.target? = some a)
    (h : debug.methodAt? a = some name) : Names debug i ("-> " ++ addressText a) name := by
  refine .of_text ?_
  rw [operandText, if_pos hop, ha, Option.getD_some, Option.bind_some, h, targetText, ha,
    Option.getD_some]

/-- An access of a variable names it. -/
theorem names_static {k : Nat} {name : String} (hop : i.op = .getStatic ∨ i.op = .putStatic)
    (ha : i.operands = [(k : Int)]) (h : debug.globals[k]? = some name) :
    Names debug i (toString k) name := by
  have hcall : i.op ≠ .call := by
    rintro hcall
    rcases hop with h | h <;> cases hcall.symm.trans h
  have hjump : ¬ i.op.isJump = true := by
    rcases hop with h | h <;> rw [h] <;> decide
  refine .of_text ?_
  rw [operandText, if_neg hcall, if_neg hjump, if_pos hop, ha]
  simp only [List.headD_cons, Int.toNat_natCast, Option.bind_some, h, List.map_singleton]
  rfl

end Listing

/-! ### Methods -/

/-- The method begins with `enter` at its entry. The operands are the low bytes of the numbers of its
parameters and variables. -/
def MethodCode.Entered (m : MethodCode) : Prop :=
  ∃ rest, m.code = ⟨m.info.entry.toNat, .enter,
    [(m.info.parameterCount.toNat % 256 : Nat), (m.info.localCount.toNat % 256 : Nat)]⟩ :: rest

/-- The lines of a method in a listing: its name, and then the lines of its instructions. -/
def MethodCode.lines (debug : DebugInfo) (targets : Std.TreeSet Int) (m : MethodCode) : String :=
  "\n" ++ m.decl.name.getD "" ++ ":\n" ++ String.join (m.code.map fun i =>
    Listing.line targets i (Listing.operandText (some debug) i))

/-- The address is inside the code of a body and not where it begins. -/
def Body.Contains (b : Body) (a : Nat) : Prop :=
  b.method.entry < a ∧ a < b.method.entry + Item.codeSize b.code

/-- Whatever holds of any two elements in their order holds pairwise. -/
theorem pairwise_of_forall_append {α : Type} {R : α → α → Prop} {as : List α}
    (h : ∀ before a between b after, as = before ++ a :: (between ++ b :: after) → R a b) :
    as.Pairwise R := by
  induction as with
  | nil => exact .nil
  | cons a as ih =>
      refine .cons (fun b hb => ?_) (ih fun before c between d after heq =>
        h (a :: before) c between d after (by rw [heq]; rfl))
      obtain ⟨between, after, rfl⟩ := List.append_of_mem hb
      exact h [] a between b after rfl

namespace Body

variable {target : Nat → Label → Int} {b : Body}

/-- Behind `enter` all items of a method are inside. -/
theorem entry_lt_of_mem_located {a : Nat} {i : Item}
    (h : (a, i) ∈ Item.located
      (b.method.entry + (Item.instruction .enter [b.method.parameterCount, b.localCount]).size)
      (b.items ++ (endCode b.method.result).map Operation.item)) : b.method.entry < a := by
  have henter : 0 < (Item.instruction .enter [b.method.parameterCount, b.localCount]).size :=
    Item.size_jump_pos .enter 0
  have := (Item.bounds_of_mem_located h).1
  omega

/-- A label in a method is inside, because something stands behind it. -/
theorem contains_of_place {a : Nat} {l : Label} (h : (a, .place l) ∈ Item.located b.method.entry b.code) :
    b.Contains a := by
  have hnext : ∃ j ∈ Item.instructions (fun _ _ => 0) b.method.entry b.code, j.pc = a + (Item.place l).size :=
    exists_instruction_behind h fun _ _ => Item.noConfusion
  obtain ⟨j, hj, hpc⟩ := hnext
  obtain ⟨a', i, hi, hij⟩ := Item.mem_instructions.1 hj
  have hsize := Item.size_pos_of_instruction? hij
  have hbehind := (Item.bounds_of_mem_located hi).2
  rw [Item.pc_of_instruction? hij] at hpc
  have hplace : (Item.place l).size = 0 := rfl
  rcases List.mem_cons.1 h with h | h
  · cases (Prod.mk.inj h).2
  · exact ⟨entry_lt_of_mem_located h, by omega⟩

theorem entered (hentry : b.method.entry < 2 ^ 32) : (b.toMethodCode target).Entered := by
  have hlow (n : Nat) : (BigEndian.natValue (BigEndian.bytes 1 n) : Int) =
      ((UInt32.ofNat n).toNat % 256 : Nat) := by
    have hrange : (BigEndian.range 1 : Int) = 256 := rfl
    rw [BigEndian.natValue_bytes, hrange, UInt32.toNat_ofNat']
    omega
  have haddress : (UInt32.ofNat b.method.entry).toNat = b.method.entry := by
    rw [UInt32.toNat_ofNat', Nat.mod_eq_of_lt hentry]
  have hrest : ∃ rest, (b.toMethodCode target).code =
      Instruction.readBack ⟨b.method.entry, .enter, [b.method.parameterCount, b.localCount]⟩ :: rest :=
    ⟨_, rfl⟩
  refine hrest.imp fun rest hcode => ?_
  rw [hcode, toMethodCode, info, Signature.info, haddress, ← hlow, ← hlow]
  rfl

end Body

namespace Compiled

variable {ms : List Member} {bs : List Body} {s : Compiler} {b b' : Body}

/-- A method begins where the ones before it have ended. -/
theorem end_le_entry (h : Compiled ms bs s) {bs₁ bs₂ bs₃ : List Body}
    (heq : bs = bs₁ ++ b :: (bs₂ ++ b' :: bs₃)) :
    b.method.entry + Item.codeSize b.code ≤ b'.method.entry := by
  rw [h.entries (bs₁ ++ b :: bs₂) b' bs₃ (by rw [heq, List.append_assoc]; rfl),
    h.entries bs₁ b (bs₂ ++ b' :: bs₃) heq, List.flatMap_append, List.flatMap_cons,
    Item.codeSize_append, Item.codeSize_append]
  omega

/-- No method begins inside another one. -/
theorem entry_ne_of_inside (h : Compiled ms bs s) (hb : b ∈ bs) (hb' : b' ∈ bs) {a : Nat}
    (ha : b.Contains a) : b'.method.entry ≠ a := by
  obtain ⟨hlt, hend⟩ := ha
  obtain ⟨bs₁, bs₂, rfl⟩ := List.append_of_mem hb
  rcases List.mem_append.1 hb' with hmem | hmem
  · obtain ⟨xs, ys, rfl⟩ := List.append_of_mem hmem
    rw [List.append_assoc] at h
    have := h.entry_lt_entry rfl
    omega
  · rcases List.mem_cons.1 hmem with rfl | hmem
    · omega
    · obtain ⟨xs, ys, rfl⟩ := List.append_of_mem hmem
      have := h.end_le_entry rfl
      omega

/-- At the entry of a method its name is found. -/
theorem methodAt?_entry (h : Compiled ms bs s) (hsize : s.code.code.size < 2 ^ 31) (hb : b ∈ bs) :
    s.debug.methodAt? b.info.entry.toNat = some b.method.name := by
  have hfind : (bs.map Body.info).find? (fun m => (m.entry.toNat : Int) = b.info.entry.toNat) =
      some b.info := by
    refine List.find?_eq_some_of_forall (List.mem_map_of_mem hb) (decide_eq_true rfl) fun m hm hfound => ?_
    obtain ⟨b', hb', rfl⟩ := List.mem_map.1 hm
    have hentry : b'.info.entry.toNat = b.info.entry.toNat := Int.ofNat.inj (of_decide_eq_true hfound)
    rw [h.info_entry hsize hb', h.info_entry hsize hb] at hentry
    rw [h.eq_of_entry hb' hb hentry]
  rw [DebugInfo.methodAt?, ← Array.find?_toList, h.debug, hfind]
  rfl

/-- No name is found where no method begins. -/
theorem methodAt?_eq_none (h : Compiled ms bs s) (hsize : s.code.code.size < 2 ^ 31) {a : Int}
    (ha : ∀ b ∈ bs, (b.method.entry : Int) ≠ a) : s.debug.methodAt? a = none := by
  rw [DebugInfo.methodAt?, ← Array.find?_toList, h.debug, Option.map_eq_none_iff, List.find?_eq_none]
  intro m hm hfound
  obtain ⟨b, hb, rfl⟩ := List.mem_map.1 hm
  rw [decide_eq_true_eq, h.info_entry hsize hb] at hfound
  exact ha b hb hfound

/-- A listing shows a method line by line, and its name above the first line only. -/
theorem lines_toMethodCode (h : Compiled ms bs s) (hsize : s.code.code.size < 2 ^ 31) (hb : b ∈ bs)
    (targets : Std.TreeSet Int) :
    String.join ((b.toMethodCode s.code.leadsTo).code.map
      (Listing.instructionText (some s.debug) targets)) =
      (b.toMethodCode s.code.leadsTo).lines s.debug targets := by
  let front : Item := .instruction .enter [b.method.parameterCount, b.localCount]
  let behind := (Item.instructions s.code.leadsTo (b.method.entry + front.size)
    (b.items ++ (endCode b.method.result).map Operation.item)).map Instruction.readBack
  let first := Instruction.readBack ⟨b.method.entry, .enter, [b.method.parameterCount, b.localCount]⟩
  have hcode : (b.toMethodCode s.code.leadsTo).code = first :: behind := rfl
  have hentry : s.debug.methodAt? first.pc = some ((b.toMethodCode s.code.leadsTo).decl.name.getD "") := by
    change s.debug.methodAt? b.method.entry = _
    rw [← h.info_entry hsize hb, h.methodAt?_entry hsize hb, h.names b hb]
    rfl
  have hinside : ∀ i ∈ behind, s.debug.methodAt? i.pc = none := by
    intro i hi
    obtain ⟨j, hj, rfl⟩ := List.mem_map.1 hi
    obtain ⟨a, item, hitem, hij⟩ := Item.mem_instructions.1 hj
    have hcontains : b.Contains a := by
      have hpos := Item.size_pos_of_instruction? hij
      have hbounds := Item.bounds_of_mem_located hitem
      have htotal : Item.codeSize b.code = front.size +
        Item.codeSize (b.items ++ (endCode b.method.result).map Operation.item) := rfl
      exact ⟨Body.entry_lt_of_mem_located hitem, by omega⟩
    have hpc : j.pc = a := Item.pc_of_instruction? hij
    change s.debug.methodAt? j.pc = none
    rw [hpc]
    exact h.methodAt?_eq_none hsize fun b' hb' heq =>
      h.entry_ne_of_inside hb hb' hcontains (Int.ofNat.inj heq)
  have hrest : behind.map (Listing.instructionText (some s.debug) targets) = behind.map fun i =>
      Listing.line targets i (Listing.operandText (some s.debug) i) :=
    List.map_congr_left fun i hi => Listing.instructionText_of_inside (hinside i hi)
  rw [MethodCode.lines, hcode, List.map_cons, List.map_cons, String.join_cons, String.join_cons,
    Listing.instructionText_of_entry hentry, hrest]
  simp only [String.append_assoc]

/-- No jump leads to the beginning of a method. -/
theorem contains_jumpTargets (h : Compiled ms bs s)
    (hnear : ∀ a t, Item.Leads s.items.toList a t → Emitter.isFar (t - a) = false) (hb : b ∈ bs) :
    (Listing.jumpTargets ((bs.map (Body.toMethodCode s.code.leadsTo)).flatMap MethodCode.code)).contains
      (b.method.entry : Int) = false := by
  rw [Bool.eq_false_iff]
  intro hcontains
  obtain ⟨i, hi, hjump, htarget⟩ := Listing.exists_of_contains_jumpTargets hcontains
  obtain ⟨m, hm, hi⟩ := List.mem_flatMap.1 hi
  obtain ⟨b', hb', rfl⟩ := List.mem_map.1 hm
  obtain ⟨j, hj, rfl⟩ := List.mem_map.1 hi
  obtain ⟨a, item, hitem, hij⟩ := Item.mem_instructions.1 hj
  have hmem := h.mem_located hb' hitem
  have hop : item.WellFormed := h.sound.assembles.wellFormed _ (Item.mem_of_mem_located hmem)
  cases item with
  | jump op l =>
      cases hij
      obtain ⟨t, ht, hleads⟩ := h.exists_place hb' hitem
      have hway : Emitter.isFar ((s.code.leadsTo a l : Int) - a) = false := by
        rw [hleads]
        exact hnear _ _ (.jump hmem (h.mem_located hb' ht))
      have hhas : op.hasTarget = true := by
        have hop : op.isJump = true := hop
        rw [Opcode.hasTarget, hop]
        rfl
      rw [Instruction.target?_readBack hhas hway, hleads] at htarget
      exact h.entry_ne_of_inside hb' hb (Body.contains_of_place ht)
        (Int.ofNat.inj (Option.some.inj htarget)).symm
  | instruction op operands =>
      cases hij
      have hjump : op.isJump = true := hjump
      rw [(Bool.or_eq_false_iff.1 hop.1).1] at hjump
      cases hjump
  | call address =>
      cases hij
      cases hjump
  | _ => cases hij

end Compiled

/-! ### Variables -/

/-- The body accesses global variables only by addresses below `n`. -/
def Body.Accesses (n : Nat) (b : Body) : Prop :=
  ∀ op operands, .instruction op operands ∈ b.code → op = .getStatic ∨ op = .putStatic →
    ∃ a : Nat, operands = [(a : Int)] ∧ a < n

/-- A method without a fault accesses global variables that there are. -/
theorem Tree.Prepared.accesses {p : Program} {s : Compiler} {d : MethodDecl} {b : Body}
    (h : Prepared (fun _ => True) p s d b) : b.Accesses p.variableCount := by
  obtain ⟨hslotted, -, hinside⟩ := d.inside_compileHead trivial h.ready h.not_faulty_compileHead
  obtain ⟨hplain, hvalid⟩ := h.plain
  have hrange := inRange_plainOfStatements ⟨fun _ => trivial, hslotted, hinside⟩ d.body hvalid h.literals
  intro op operands hmem hop
  rcases List.mem_cons.1 hmem with heq | hmem
  · cases heq
    rcases hop with hop | hop <;> cases hop
  · rcases List.mem_append.1 hmem with hmem | hmem
    · have hfilter : .instruction op operands ∈ b.items.filter Item.isPlain :=
        List.mem_filter.2 ⟨hmem, rfl⟩
      rw [hplain] at hfilter
      have hrange := hrange _ hfilter (op, operands) rfl
      rcases hop with rfl | rfl <;> exact hrange
    · obtain ⟨o, ho, heq⟩ := List.mem_map.1 hmem
      cases heq
      have hend : o.1 = .exit ∨ o.1 = .ret ∨ o.1 = .trap := by
        rw [endCode] at ho
        split at ho <;> simp at ho
        · rcases ho with rfl | rfl <;> simp
        · rw [ho]
          simp
      rcases hop with hop | hop <;> rw [hop] at hend <;> simp at hend

/-- The address of a variable is read back from the code. -/
theorem Compiled.exists_operands {ms : List Member} {bs : List Body} {s : Compiler} {b : Body} {n : Nat}
    (h : Compiled ms bs s) (hb : b ∈ bs) (haccesses : b.Accesses n) (hn : n ≤ maxGlobals)
    {i : Instruction} (hi : i ∈ (b.toMethodCode s.code.leadsTo).code)
    (hop : i.op = .getStatic ∨ i.op = .putStatic) : ∃ k : Nat, i.operands = [(k : Int)] ∧ k < n := by
  obtain ⟨j, hj, rfl⟩ := List.mem_map.1 hi
  obtain ⟨a, item, hitem, hij⟩ := Item.mem_instructions.1 hj
  have hop : j.op = .getStatic ∨ j.op = .putStatic := hop
  cases item with
  | instruction op operands =>
      cases hij
      obtain ⟨k, rfl, hk⟩ := haccesses op operands (Item.mem_of_mem_located hitem) hop
      have hmax : maxGlobals = 32767 := rfl
      have hword : Immediate.word.Keeps a k := ⟨by omega, by omega⟩
      have hforms : op.immediates = [.word] := by
        rcases hop with rfl | rfl <;> rfl
      have hkeeps : Operation.Keeps a (op, [(k : Int)]) := by
        rw [Operation.Keeps, hforms]
        exact .cons hword .nil
      rw [Instruction.readBack_eq (i := ⟨a, op, [(k : Int)]⟩) hkeeps]
      exact ⟨k, rfl, hk⟩
  | jump op l =>
      cases hij
      have hjump : op.isJump = true :=
        h.sound.assembles.wellFormed _ (Item.mem_of_mem_located (h.mem_located hb hitem))
      rcases hop with rfl | rfl <;> cases hjump
  | call address =>
      cases hij
      rcases hop with hop | hop <;> cases hop
  | _ => cases hij

/-! ### Listings of compiled programs -/

/-- A listing names the method that a call of this method leads to, and the variable that an instruction
accesses. -/
structure MethodCode.Annotated (ms : List MethodCode) (t : SymbolTable) (debug : DebugInfo)
    (m : MethodCode) : Prop where
  calls : ∀ i ∈ m.code, i.op = .call → ∃ m' ∈ ms, i.target? = some (m'.info.entry.toNat : Int) ∧
    Listing.Names debug i ("-> " ++ Listing.addressText m'.info.entry.toNat) (m'.decl.name.getD "")
  statics : ∀ i ∈ m.code, i.op = .getStatic ∨ i.op = .putStatic → ∃ (k : Nat) (id : SymbolId),
    i.operands = [(k : Int)] ∧ t.globals[k]? = some id ∧ (t.symbol id).address = k ∧
      Listing.Names debug i (toString k) (t.symbol id).name

theorem String.join_flatMap {α β : Type} (f : β → String) (g : α → List β) (as : List α) :
    String.join ((as.flatMap g).map f) = String.join (as.map fun a => String.join ((g a).map f)) := by
  induction as with
  | nil => rfl
  | cons a as ih =>
      rw [List.flatMap_cons, List.map_append, String.join_append, ih, List.map_cons, String.join_cons]

namespace Compiled

variable {ms : List Member} {bs : List Body} {s : Compiler} {b : Body} {image : Image}

/-- A listing is made of the lines of the methods. -/
theorem ofImage_eq (h : Compiled ms bs s) (hsize : s.code.code.size < 2 ^ 31)
    (himage : image.code = s.code.code) :
    Listing.ofImage image (some s.debug) = .ok (Listing.header image ++
      String.join ((bs.map (Body.toMethodCode s.code.leadsTo)).map (MethodCode.lines s.debug
        (Listing.jumpTargets ((bs.map (Body.toMethodCode s.code.leadsTo)).flatMap MethodCode.code))))) := by
  have hdecode := h.decode_code
  rw [← himage] at hdecode
  rw [Listing.ofImage_eq hdecode, String.join_flatMap, List.map_map, List.map_map]
  congr 2
  refine congrArg String.join (List.map_congr_left fun b hb => ?_)
  exact h.lines_toMethodCode hsize hb _

/-- Without a fault calls and accesses of variables are named. -/
theorem annotated (h : Compiled ms bs s) (hsize : s.code.code.size < 2 ^ 31)
    (hnear : ∀ a t, Item.Leads s.items.toList a t → Emitter.isFar (t - a) = false) (hb : b ∈ bs)
    {t : SymbolTable} (haccesses : b.Accesses t.globals.length) (hglobals : t.globals.length ≤ maxGlobals)
    (hnames : ∀ (k : Nat) (id : SymbolId), t.globals[k]? = some id →
      s.debug.globals[k]? = some (t.symbol id).name ∧ (t.symbol id).address = k) :
    (b.toMethodCode s.code.leadsTo).Annotated (bs.map (Body.toMethodCode s.code.leadsTo)) t s.debug := by
  refine ⟨fun i hi hop => ?_, fun i hi hop => ?_⟩
  · have hhas : i.op.hasTarget = true := by rw [hop]; rfl
    obtain ⟨a, -, htarget, -, hcall⟩ := (h.leading hsize hb).led hnear i hi hhas
    obtain ⟨m', hm', rfl⟩ := hcall hop
    obtain ⟨b', hb', rfl⟩ := List.mem_map.1 hm'
    refine ⟨_, hm', htarget, Listing.names_call hop htarget ?_⟩
    exact (h.methodAt?_entry hsize hb').trans (congrArg some (h.names b' hb'))
  · obtain ⟨k, hoperands, hk⟩ := h.exists_operands hb haccesses hglobals hi hop
    have hid : t.globals[k]? = some t.globals[k] := List.getElem?_eq_getElem hk
    obtain ⟨hname, haddress⟩ := hnames k _ hid
    exact ⟨k, _, hoperands, hid, haddress, Listing.names_static hop hoperands hname⟩

end Compiled

namespace TokenSource

/-- The debug information agrees with the code and with the symbol table, also for a program with faults.
The listing of a program without diagnostics shows the name of every method right before its `enter`, and
behind every call and every access of a variable the name of the method or variable. -/
theorem compile_names (source : TokenSource) (minDistance : Nat) :
    ∃ c, source.compile minDistance = .ok c ∧
      c.debug = c.table.debugInfo (Program.read source.tokens) ∧
      source.compiler.code.dataSize = c.debug.globals.size ∧
      c.image.dataSize = Int32.ofNat c.debug.globals.size ∧
      (∀ (k : Nat) (id : SymbolId), c.table.globals[k]? = some id →
        c.debug.globals[k]? = some (c.table.symbol id).name ∧ (c.table.symbol id).address = k ∧
          (c.table.symbol id).level = 0) ∧
      (c.image.code.size < 2 ^ 31 → ∃ ms : List MethodCode,
        ms.map MethodCode.decl = (Program.read source.tokens).members.filterMap Member.method? ∧
        ms.map MethodCode.info = c.debug.methods.toList ∧
        Instruction.decode c.image.code.toList = .ok (ms.flatMap MethodCode.code).toArray ∧
        ms.Pairwise (fun m m' => m.info.entry < m'.info.entry) ∧
        (∀ m ∈ ms, m.info.name = m.decl.name.getD "" ∧ m.Entered ∧
          c.debug.methodAt? m.info.entry.toNat = some (m.decl.name.getD "")) ∧
        (∀ a : Int, (∀ m ∈ ms, (m.info.entry.toNat : Int) ≠ a) → c.debug.methodAt? a = none) ∧
        (c.diagnostics = #[] →
          Listing.ofImage c.image (some c.debug) = .ok (Listing.header c.image ++ String.join (ms.map
            (MethodCode.lines c.debug (Listing.jumpTargets (ms.flatMap MethodCode.code))))) ∧
          ∀ m ∈ ms, (Listing.jumpTargets (ms.flatMap MethodCode.code)).contains
              (m.info.entry.toNat : Int) = false ∧ m.Annotated ms c.table c.debug)) := by
  let p := Program.read source.tokens
  let target := source.compiler.code.leadsTo
  obtain ⟨bs, hadds, h⟩ := p.compiled_addsAll
  have h : Compiled p.members bs source.compiler := h
  obtain ⟨hrecorded, hdebug, hdata⟩ : p.Recorded source.compiler.table ∧
      source.compiler.debug = source.compiler.table.debugInfo p ∧
      source.compiler.code.dataSize = source.compiler.table.globals.length := p.debug_compile
  have hglobals : source.compiler.debug.globals.size = source.compiler.table.globals.length := by
    simp [hdebug, SymbolTable.debugInfo]
  have hnames (k : Nat) (id : SymbolId) (hid : source.compiler.table.globals[k]? = some id) :
      source.compiler.debug.globals[k]? = some (source.compiler.table.symbol id).name := by
    simp [hdebug, SymbolTable.debugInfo, hid]
  have hwords := hdata.trans hglobals.symm
  refine ⟨_, source.compile_eq_ok minDistance, hdebug, hwords, congrArg Int32.ofNat hwords, fun k id hid =>
    ⟨hnames k id hid, hrecorded.slots k id hid⟩, fun hsize => ?_⟩
  have hsize : source.compiler.code.code.size < 2 ^ 31 := hsize
  refine ⟨bs.map (Body.toMethodCode target), ?_, ?_, h.decode_code, ?_, fun m hm => ?_, fun a ha => ?_,
    fun hnone => ?_⟩
  · rw [Body.map_decl_toMethodCode, h.decls]
  · rw [Body.map_info_toMethodCode, ← h.debug]
  · refine List.pairwise_map.2 (pairwise_of_forall_append fun bs₁ b bs₂ b' bs₃ heq => ?_)
    have hb : b ∈ bs := heq ▸ by simp
    have hb' : b' ∈ bs := heq ▸ by simp
    refine UInt32.lt_iff_toNat_lt.2 ?_
    have hlt := h.entry_lt_entry heq
    rwa [← h.info_entry hsize hb, ← h.info_entry hsize hb'] at hlt
  · obtain ⟨b, hb, rfl⟩ := List.mem_map.1 hm
    have hentry : b.method.entry < 2 ^ 32 := (h.entry_lt hb).trans (hsize.trans (by decide))
    exact ⟨h.names b hb, Body.entered hentry,
      (h.methodAt?_entry hsize hb).trans (congrArg some (h.names b hb))⟩
  · refine h.methodAt?_eq_none hsize fun b hb => ?_
    rw [← h.info_entry hsize hb]
    exact ha _ (List.mem_map_of_mem hb)
  · have hclean : ¬ source.compiler.Faulty := not_faulty h.orderly hnone
    have hnear := (h.flawless hclean).near
    have hliterals : p.Literals (fun _ => True) := Program.literals_read fun _ _ => trivial
    obtain ⟨hcount, hsmall⟩ := p.dataSize_compile trivial hliterals.declarations hclean
    have hlength : source.compiler.table.globals.length = p.variableCount := hdata.symm.trans hcount
    refine ⟨h.ofImage_eq hsize rfl, fun m hm => ?_⟩
    obtain ⟨b, hb, rfl⟩ := List.mem_map.1 hm
    obtain ⟨_, _, hb'⟩ := hadds.exists_prepared trivial hliterals hclean hb
    have haccesses : b.Accesses source.compiler.table.globals.length := by
      rw [hlength]
      exact hb'.accesses
    refine ⟨?_, h.annotated hsize hnear hb haccesses (hlength.trans_le hsmall)
      fun k id hid => ⟨hnames k id hid, (hrecorded.slots k id hid).1⟩⟩
    rw [show (b.toMethodCode target).info.entry.toNat = b.method.entry from h.info_entry hsize hb]
    exact h.contains_jumpTargets hnear hb

/-- A program with variables and a constant between them, and a call. -/
def storesLetter : TokenSource := scan
  "program P int a; final int k = 3; char b; \x7b
     void store(char c) int i; \x7b b = c; \x7d void main() \x7b store('x'); a = k; \x7d \x7d"

/-- The listing of the program names its methods and variables. -/
theorem compile_names_storesLetter : ∃ c, storesLetter.compile 0 = .ok c ∧ c.diagnostics = #[] ∧
    c.image.code.size < 2 ^ 31 ∧ c.debug.globals = #["a", "b"] ∧ c.image.dataSize = 2 ∧
    ∃ ms : List MethodCode, Instruction.decode c.image.code.toList = .ok (ms.flatMap MethodCode.code).toArray ∧
      (ms.map fun m => m.info.name) = ["store", "main"] ∧
      (∀ m ∈ ms, m.Entered ∧ m.Annotated ms c.table c.debug) ∧
      Listing.ofImage c.image (some c.debug) = .ok (Listing.header c.image ++ String.join (ms.map
        (MethodCode.lines c.debug (Listing.jumpTargets (ms.flatMap MethodCode.code))))) := by
  obtain ⟨c, hc, -, -, hdata, -, hlists⟩ := storesLetter.compile_names 0
  have hsmall : (storesLetter.compile 0).toOption.all (fun c => decide (c.diagnostics = #[] ∧
      c.image.code.size < 2 ^ 31 ∧ c.debug.globals = #["a", "b"] ∧
      c.debug.methods.toList.map MethodInfo.name = ["store", "main"])) = true := by
    decide +kernel
  rw [hc] at hsmall
  obtain ⟨hnone, hsize, hglobals, hnames⟩ : c.diagnostics = #[] ∧ c.image.code.size < 2 ^ 31 ∧
      c.debug.globals = #["a", "b"] ∧ c.debug.methods.toList.map MethodInfo.name = ["store", "main"] := by
    simpa [Except.toOption] using hsmall
  obtain ⟨ms, -, hinfos, hdecode, -, hentered, -, hlisting⟩ := hlists hsize
  obtain ⟨htext, hannotated⟩ := hlisting hnone
  rw [← hinfos, List.map_map] at hnames
  exact ⟨c, hc, hnone, hsize, hglobals, by rw [hdata, hglobals]; rfl, ms, hdecode, hnames,
    fun m hm => ⟨(hentered m hm).2.1, (hannotated m hm).2⟩, htext⟩

/-- A program with a method whose name ends in a blank, and a call of it. -/
def callsBlankName : TokenSource :=
  ofTokens <| [(.kwProgram, ""), (.ident, "P"), (.leftBrace, ""),
    (.kwVoid, ""), (.ident, "f "), (.leftParen, ""), (.rightParen, ""), (.leftBrace, ""), (.rightBrace, ""),
    (.kwVoid, ""), (.ident, "main"), (.leftParen, ""), (.rightParen, ""), (.leftBrace, ""),
    (.ident, "f "), (.leftParen, ""), (.rightParen, ""), (.semicolon, ""), (.rightBrace, ""),
    (.rightBrace, "")].map fun (kind, name) => { kind, position := Position.start, name }

/-- The listing of the program. -/
def callsBlankName.listing : String :=
  "; code 13 bytes, data 0 words, entry 5\n" ++
    "\nf :\n0000   enter       0, 0\n0003   exit        \n0004   return      \n" ++
    "\nmain:\n0005   enter       0, 0\n0008   call        -> 0000 ; f\n" ++
    "0011   exit        \n0012   return      \n"

/-- The blank at the end of the name is not shown behind the call. -/
theorem listing_callsBlankName : ∃ c, callsBlankName.compile 0 = .ok c ∧ c.diagnostics = #[] ∧
    c.image.code.size = 13 ∧ c.debug.methodAt? 0 = some "f " ∧
    Listing.ofImage c.image (some c.debug) = .ok callsBlankName.listing ∧
    ¬ "; f ".toList <:+: callsBlankName.listing.toList := by
  have hcompile : (callsBlankName.compile 0).toOption.any (fun c => decide (c.diagnostics = #[] ∧
      c.image.code.size = 13 ∧ c.debug.methodAt? 0 = some "f " ∧
      (Listing.ofImage c.image (some c.debug)).toOption = some callsBlankName.listing)) = true := by
    decide +kernel
  have hblank : ¬ "; f ".toList <:+: callsBlankName.listing.toList := by
    decide +kernel
  cases hc : callsBlankName.compile 0 with
  | error e =>
      rw [hc] at hcompile
      cases hcompile
  | ok c =>
      rw [hc] at hcompile
      obtain ⟨hnone, hsize, hname, htext⟩ := of_decide_eq_true hcompile
      refine ⟨c, rfl, hnone, hsize, hname, ?_, hblank⟩
      cases hlisting : Listing.ofImage c.image (some c.debug) with
      | error e =>
          rw [hlisting] at htext
          cases htext
      | ok text =>
          rw [hlisting] at htext
          rw [Option.some.inj htext]

end TokenSource

end MicroJava
