import Mathlib.Data.List.Forall2
import MicroJava.Proofs.Decoding
import MicroJava.Proofs.Literals
import MicroJava.Proofs.PlainCode
import MicroJava.Proofs.Slots

/-!
# The operands of instructions are in range

Every instruction that is written for a statement has an operand that is in range for what it names:
a variable of the method or of the program, a field of the class of a designator, the number of fields
of a class (`Operation.InRange`, `Tree.Statement.inRange_plain`). The numbers that a program may have of
each are so small that these operands are read back from the code as they were written
(`Operation.InRange.readOperands`); of a constant the code keeps the word.
-/

namespace MicroJava

/-- The integers that a word of the machine can hold. -/
def IsWord (n : Int) : Prop := wrapWord n = n

theorem isWord_wrapWord (n : Int) : IsWord (wrapWord n) := Int.bmod_bmod

/-- The class of some designator has a field with this offset. -/
def SymbolTable.HasField (t : SymbolTable) (offset : Int) : Prop :=
  ∃ (d : Tree.Designator) (name : Option String) (k : Nat),
    ((Tree.Designator.field d name).place t).location = .field offset ∧ offset = k ∧
      k < (t.fields (d.place t).type).size

/-- The operands of an operation in a method with so many variables, in a program with so many. The
numbers of the fields of a class are those of the table `t`, and `P` holds of constants. Nothing is said
of operands that name addresses in the code. -/
def Operation.InRange (P : Int → Prop) (t : SymbolTable) (localCount dataSize : Nat)
    (o : Operation) : Prop :=
  match o.1 with
  | .load | .store => ∃ slot : Nat, o.2 = [(slot : Int)] ∧ slot < localCount
  | .load0 | .store0 => o.2 = [] ∧ 0 < localCount
  | .load1 | .store1 => o.2 = [] ∧ 1 < localCount
  | .load2 | .store2 => o.2 = [] ∧ 2 < localCount
  | .load3 | .store3 => o.2 = [] ∧ 3 < localCount
  | .inc => ∃ (slot : Nat) (k : Int), o.2 = [(slot : Int), k] ∧ slot < localCount ∧ -128 ≤ k ∧ k ≤ 127
  | .getStatic | .putStatic => ∃ a : Nat, o.2 = [(a : Int)] ∧ a < dataSize
  | .getField | .putField => ∃ offset, o.2 = [offset] ∧ t.HasField offset
  | .new => ∃ name type, t.type? name = some type ∧ o.2 = [((t.fields type).size : Int)]
  | .newArray => o.2 = [0] ∨ o.2 = [1]
  | .const => ∃ n, o.2 = [n] ∧ P n
  | .enter => ∃ k : Nat, o.2 = [(k : Int), (localCount : Int)] ∧ k ≤ localCount
  | .trap => o.2 = [1]
  | .jmp | .jeq | .jne | .jlt | .jle | .jgt | .jge | .call => True
  | _ => o.2 = []

theorem Operation.inRange_of_isJump {P : Int → Prop} {t : SymbolTable} {localCount dataSize : Nat}
    {o : Operation} (h : o.1.isJump = true) : o.InRange P t localCount dataSize := by
  obtain ⟨op, operands⟩ := o
  cases op <;> trivial

/-- The operation of an item, with its operands. Jumps have none. -/
def Item.operation? : Item → Option Operation
  | instruction op operands => some (op, operands)
  | call a => some (.call, [a])
  | _ => none

/-- The operation of an item is in range. -/
def Item.InRange (P : Int → Prop) (t : SymbolTable) (localCount dataSize : Nat) (i : Item) : Prop :=
  ∀ o ∈ i.operation?, o.InRange P t localCount dataSize

/-- The operations of all items are in range. -/
def AllInRange (P : Int → Prop) (t : SymbolTable) (localCount dataSize : Nat) (is : List Item) : Prop :=
  ∀ i ∈ is, i.InRange P t localCount dataSize

variable {P : Int → Prop} {t : SymbolTable} {localCount dataSize : Nat}

namespace AllInRange

theorem nil : AllInRange P t localCount dataSize [] := List.forall_mem_nil _

theorem append {is js : List Item} (h : AllInRange P t localCount dataSize is)
    (h' : AllInRange P t localCount dataSize js) : AllInRange P t localCount dataSize (is ++ js) :=
  List.forall_mem_append.2 ⟨h, h'⟩

theorem single {op : Opcode} {operands : List Int}
    (h : Operation.InRange P t localCount dataSize (op, operands)) :
    AllInRange P t localCount dataSize [.instruction op operands] := by
  refine List.forall_mem_singleton.2 ?_
  rintro o ho
  obtain rfl := Option.some.inj ho
  exact h

theorem of_operation {o : Operation} (h : o.InRange P t localCount dataSize) :
    AllInRange P t localCount dataSize [Operation.item o] := single h

theorem call (a : Int) : AllInRange P t localCount dataSize [.call a] := by
  refine List.forall_mem_singleton.2 ?_
  rintro o ho
  obtain rfl := Option.some.inj ho
  exact trivial

end AllInRange

/-! ### Operands -/

theorem inRange_pushConstant {n : Int} (h : P n) :
    Operation.InRange P t localCount dataSize (pushConstant n) := by
  unfold pushConstant
  repeat' split
  all_goals first | rfl | exact ⟨n, rfl, h⟩

theorem inRange_pushLocal {slot : Nat} (h : slot < localCount) :
    Operation.InRange P t localCount dataSize (pushLocal slot) := by
  unfold pushLocal
  repeat' split
  all_goals first | exact ⟨rfl, by omega⟩ | exact ⟨slot, rfl, h⟩

theorem inRange_popLocal {slot : Nat} (h : slot < localCount) :
    Operation.InRange P t localCount dataSize (popLocal slot) := by
  unfold popLocal
  repeat' split
  all_goals first | exact ⟨rfl, by omega⟩ | exact ⟨slot, rfl, h⟩

/-- The place of an operand is one of the method, of the program or of a class. -/
def Operand.Placed (P : Int → Prop) (t : SymbolTable) (localCount dataSize : Nat) (x : Operand) : Prop :=
  match x.location with
  | .field offset => t.HasField offset
  | location => location.Fits P localCount dataSize

namespace Operand.Placed

variable {x : Operand} (h : x.Placed P t localCount dataSize)

include h

theorem loading : AllInRange P t localCount dataSize x.loading := by
  obtain ⟨location, type⟩ := x
  cases location with
  | constant n => exact .of_operation (inRange_pushConstant h)
  | localVar slot =>
      obtain ⟨k, rfl, hk⟩ := h
      exact .of_operation (inRange_pushLocal hk)
  | globalVar address =>
      obtain ⟨k, rfl, hk⟩ := h
      exact .of_operation ⟨k, rfl, hk⟩
  | field offset => exact .of_operation ⟨offset, rfl, h⟩
  | element =>
      refine .of_operation ?_
      dsimp only
      split <;> rfl
  | stack | method _ | condition _ _ _ => exact .nil

theorem storing : AllInRange P t localCount dataSize x.storing := by
  obtain ⟨location, type⟩ := x
  cases location with
  | localVar slot =>
      obtain ⟨k, rfl, hk⟩ := h
      exact .of_operation (inRange_popLocal hk)
  | globalVar address =>
      obtain ⟨k, rfl, hk⟩ := h
      exact .of_operation ⟨k, rfl, hk⟩
  | field offset => exact .of_operation ⟨offset, rfl, h⟩
  | element =>
      refine .of_operation ?_
      dsimp only
      split <;> rfl
  | constant _ | stack | method _ | condition _ _ _ => exact .nil

end Operand.Placed

theorem Operand.inRange_duplicating (x : Operand) :
    AllInRange P t localCount dataSize x.duplicating := by
  obtain ⟨location, type⟩ := x
  cases location with
  | field _ | element => exact .of_operation rfl
  | _ => exact .nil

theorem Operand.inRange_calling (x : Operand) :
    AllInRange P t localCount dataSize (x.calling t) := by
  unfold calling
  repeat' split
  · exact .nil
  · exact .single rfl
  · exact .call _
  · exact .nil

theorem Operand.Placed.stepping {x : Operand} (h : x.Placed P t localCount dataSize) {k : Int}
    (hk : -128 ≤ k ∧ k ≤ 127) (hP : P k) : AllInRange P t localCount dataSize (x.stepping k) := by
  unfold Operand.stepping
  split
  · next slot hslot =>
      unfold Operand.Placed at h
      rw [hslot] at h
      obtain ⟨n, rfl, hn⟩ := h
      exact .single ⟨n, k, rfl, hn, hk⟩
  · exact (((x.inRange_duplicating.append h.loading).append
      (.of_operation (inRange_pushConstant hP))).append
      (.of_operation (o := (.add, [])) rfl)).append h.storing

theorem inRange_powerCode {k : Int} {o : Operation} (h : o ∈ powerCode k) :
    o.InRange P t localCount dataSize := by
  unfold powerCode at h
  split at h
  · simp only [List.mem_cons, List.not_mem_nil, or_false] at h
    rcases h with rfl | rfl <;> rfl
  · rcases List.mem_append.1 h with h | h <;> (rw [List.eq_of_mem_replicate h]; rfl)

/-! ### Expressions -/

/-- In a table all variables of a method and of the program have their places, and `P` holds of the
values of constants and of what is computed from them. -/
structure SymbolTable.Ranged (P : Int → Prop) (localCount dataSize : Nat) (t : SymbolTable) : Prop where
  words : ∀ n, P (wrapWord n)
  slotted : t.Slotted P
  inside : t.Inside localCount dataSize

namespace Tree

/-- What a designator stands for has its place in the method, the program or a class. -/
theorem Designator.placed_place (ht : t.Ranged P localCount dataSize) (d : Designator) : (d.place t).Placed P t localCount dataSize := by
  cases d with
  | name n =>
      rw [Designator.place]
      cases hx : t.operand? n with
      | none => exact ht.words 0
      | some x =>
          have hfits := ht.slotted.fits_operand? ht.inside hx
          obtain ⟨-, id, -, -, hid⟩ := SymbolTable.exists_of_operand? hx
          rw [Option.getD_some]
          unfold Operand.Placed
          split
          · next offset hoffset =>
              unfold Operand.ofSymbol? at hid
              split at hid <;> cases hid
              · cases hoffset
              · dsimp only at hoffset
                split at hoffset <;> cases hoffset
              · cases hoffset
          · exact hfits
  | field d n =>
      cases hx : t.fieldOperand? (d.place t).type n with
      | none =>
          rw [Designator.place, hx]
          exact ht.words 0
      | some x =>
          obtain ⟨k, hk, hlt, -⟩ := ht.slotted.exists_field hx
          have hplace : (Designator.field d n).place t = x := by rw [Designator.place, hx, Option.getD_some]
          unfold Operand.Placed
          rw [hplace, hk]
          exact ⟨d, n, k, by rw [hplace, hk], rfl, hlt⟩
  | element d index closed =>
      rw [Designator.place]
      exact trivial

mutual

theorem Expr.inRange_code (ht : t.Ranged P localCount dataSize) : (e : Expr) → e.Valid t → e.Literals P →
    AllInRange P t localCount dataSize (e.code t)
  | .term x, hv, h => by
      rw [Expr.Valid] at hv
      rw [Expr.Literals] at h
      rw [Expr.code]
      exact x.inRange_code ht hv h
  | .neg x, hv, h => by
      rw [Expr.Valid] at hv
      rw [Expr.Literals] at h
      rw [Expr.code]
      split
      · exact .of_operation (inRange_pushConstant (ht.words _))
      · exact (x.inRange_code ht hv h).append (.single rfl)
  | .add e op x, hv, h => by
      rw [Expr.Valid] at hv
      rw [Expr.Literals] at h
      rw [Expr.code]
      exact ((e.inRange_code ht hv.1 h.1).append (x.inRange_code ht hv.2 h.2)).append
        (.single (by cases op <;> rfl))

theorem Term.inRange_code (ht : t.Ranged P localCount dataSize) : (x : Term) → x.Valid t → x.Literals P →
    AllInRange P t localCount dataSize (x.code t)
  | .factor f, hv, h => by
      rw [Term.Valid] at hv
      rw [Term.Literals] at h
      rw [Term.code]
      exact f.inRange_code ht hv h
  | .mul x op f, hv, h => by
      rw [Term.Valid] at hv
      rw [Term.Literals] at h
      rw [Term.code]
      exact ((x.inRange_code ht hv.1 h.1).append (f.inRange_code ht hv.2 h.2)).append
        (.single (by cases op <;> rfl))
  | .power x k, hv, h => by
      rw [Term.Valid] at hv
      rw [Term.Literals] at h
      rw [Term.code]
      refine (x.inRange_code ht hv.1 h).append fun i hi => ?_
      obtain ⟨o, ho, rfl⟩ := List.mem_map.1 hi
      rintro o' ho'
      obtain rfl := Option.some.inj ho'
      exact inRange_powerCode ho

theorem Factor.inRange_code (ht : t.Ranged P localCount dataSize) : (f : Factor) → f.Valid t → f.Literals P →
    AllInRange P t localCount dataSize (f.code t)
  | .designator d, hv, h => by
      rw [Factor.Valid] at hv
      rw [Factor.Literals] at h
      rw [Factor.code]
      exact (d.inRange_code ht hv.1 h).append (d.placed_place ht).loading
  | .call d arguments _, hv, h => by
      rw [Factor.Valid] at hv
      rw [Factor.Literals] at h
      rw [Factor.code]
      exact ((d.inRange_code ht hv.1 h.1).append (inRange_codeOfArguments ht arguments hv.2.1 h.2)).append
        (Operand.inRange_calling _)
  | .number n, _, h | .char n, _, h => by
      rw [Factor.Literals] at h
      rw [Factor.code]
      exact .of_operation (inRange_pushConstant h)
  | .newObject name, hv, _ => by
      rw [Factor.Valid] at hv
      rw [Factor.code]
      obtain ⟨type, htype, -⟩ := hv
      rw [htype]
      exact .single ⟨name, type, htype, rfl⟩
  | .newArray name size _, hv, h => by
      rw [Factor.Valid] at hv
      rw [Factor.Literals] at h
      rw [Factor.code]
      refine (size.inRange_code ht hv.2 h).append (.single ?_)
      split
      · exact .inl rfl
      · exact .inr rfl
  | .group e _, hv, h => by
      rw [Factor.Valid] at hv
      rw [Factor.Literals] at h
      rw [Factor.code]
      exact e.inRange_code ht hv h
  | .missing, hv, _ => by
      rw [Factor.Valid] at hv
      exact hv.elim

theorem Designator.inRange_code (ht : t.Ranged P localCount dataSize) : (d : Designator) → d.Valid t → d.Literals P →
    AllInRange P t localCount dataSize (d.code t)
  | .name _, _, _ => by
      rw [Designator.code]
      exact .nil
  | .field d _, hv, h => by
      rw [Designator.Valid] at hv
      rw [Designator.Literals] at h
      rw [Designator.code]
      exact (d.inRange_code ht hv.1 h).append (d.placed_place ht).loading
  | .element d index _, hv, h => by
      rw [Designator.Valid] at hv
      rw [Designator.Literals] at h
      rw [Designator.code]
      exact ((d.inRange_code ht hv.1 h.1).append (d.placed_place ht).loading).append
        (index.inRange_code ht hv.2.2 h.2)

theorem inRange_codeOfArguments (ht : t.Ranged P localCount dataSize) : (es : List Expr) →
    ValidArguments t es → ArgumentLiterals P es → AllInRange P t localCount dataSize (codeOfArguments t es)
  | [], _, _ => by
      rw [codeOfArguments]
      exact .nil
  | e :: es, hv, h => by
      rw [ValidArguments] at hv
      rw [ArgumentLiterals] at h
      rw [codeOfArguments]
      exact (e.inRange_code ht hv.1 h.1).append (inRange_codeOfArguments ht es hv.2 h.2)

end

/-! ### Statements -/

theorem Comparison.inRange_code (ht : t.Ranged P localCount dataSize) {c : Comparison} (hv : c.Valid t)
    (h : c.Literals P) : AllInRange P t localCount dataSize (c.code t) :=
  (c.left.inRange_code ht hv.1 h.1).append (c.right.inRange_code ht hv.2 h.2)

theorem Conjunction.inRange_plain (ht : t.Ranged P localCount dataSize) : (c : Conjunction) →
    c.Valid t → c.Literals P → AllInRange P t localCount dataSize (c.plain t)
  | .comparison _, hv, h => Comparison.inRange_code ht hv h
  | .and cs _, hv, h => (cs.inRange_plain ht hv.1 h.1).append (Comparison.inRange_code ht hv.2 h.2)

theorem Condition.inRange_plain (ht : t.Ranged P localCount dataSize) : (c : Condition) →
    c.Valid t → c.Literals P → AllInRange P t localCount dataSize (c.plain t)
  | .conjunction c, hv, h => c.inRange_plain ht hv h
  | .or cs c, hv, h => (cs.inRange_plain ht hv.1 h.1).append (c.inRange_plain ht hv.2 h.2)

theorem Action.inRange_code (ht : t.Ranged P localCount dataSize) {x : Operand}
    (hx : x.Placed P t localCount dataSize) (a : Action) (hv : a.Valid t x) (h : a.Literals P) :
    AllInRange P t localCount dataSize (a.code t x) := by
  cases a with
  | assign op value =>
      have hvalue := value.inRange_code ht hv.1 h
      cases ho : op.opcode? with
      | none =>
          simp only [Action.code, ho]
          exact hvalue.append hx.storing
      | some o =>
          have hop : AllInRange P t localCount dataSize [.instruction o []] :=
            .single (by cases op <;> cases ho <;> rfl)
          simp only [Action.code, ho]
          exact (((x.inRange_duplicating.append hx.loading).append hvalue).append hop).append hx.storing
  | call arguments _ =>
      refine ((inRange_codeOfArguments ht arguments hv.1 h).append (x.inRange_calling)).append ?_
      split
      · exact .nil
      · exact .single rfl
  | increment => exact hx.stepping (by decide) (ht.words 1)
  | decrement =>
      have hwrap : wrapWord (-1) = -1 := by decide
      exact hx.stepping (by decide) (hwrap ▸ ht.words (-1))
  | missing => exact hv.elim

theorem inRange_readOpcode? (type : Ty) :
    AllInRange P t localCount dataSize [.instruction ((readOpcode? type).getD .read) []] := by
  refine .single ?_
  unfold readOpcode?
  split <;> rfl

theorem inRange_printOpcode? (type : Ty) :
    AllInRange P t localCount dataSize [.instruction ((printOpcode? type).getD .print) []] := by
  refine .single ?_
  unfold printOpcode?
  repeat' split
  all_goals rfl

mutual

theorem Statement.inRange_plain (ht : t.Ranged P localCount dataSize) : (s : Statement) → s.Valid t →
    s.Literals P → AllInRange P t localCount dataSize (s.plain t)
  | .action d a _, hv, h => by
      rw [Statement.Valid] at hv
      rw [Statement.Literals] at h
      rw [Statement.plain]
      exact (d.inRange_code ht hv.1 h.1).append (a.inRange_code ht (d.placed_place ht) hv.2 h.2)
  | .ifThen _ c _ body, hv, h | .whileDo _ c _ body, hv, h => by
      rw [Statement.Valid] at hv
      rw [Statement.Literals] at h
      rw [Statement.plain]
      exact (c.inRange_plain ht hv.1 h.1).append (body.inRange_plain ht hv.2 h.2)
  | .ifThenElse _ c _ body other, hv, h => by
      rw [Statement.Valid] at hv
      rw [Statement.Literals] at h
      rw [Statement.plain]
      exact ((c.inRange_plain ht hv.1 h.1).append (body.inRange_plain ht hv.2.1 h.2.1)).append
        (other.inRange_plain ht hv.2.2 h.2.2)
  | .give value _, hv, h => by
      rw [Statement.Valid] at hv
      rw [Statement.Literals] at h
      rw [Statement.plain]
      have hleave : AllInRange P t localCount dataSize
          ([(.exit, []), (.ret, [])].map Operation.item) :=
        AllInRange.append (.of_operation (o := (.exit, [])) rfl) (.of_operation (o := (.ret, [])) rfl)
      refine AllInRange.append ?_ hleave
      cases value with
      | none => exact .nil
      | some e => exact e.inRange_code ht (hv e rfl) (h e rfl)
  | .read _ d _ _, hv, h => by
      rw [Statement.Valid] at hv
      rw [Statement.Literals] at h
      rw [Statement.plain]
      exact ((d.inRange_code ht hv.1 h).append (inRange_readOpcode? _)).append (d.placed_place ht).storing
  | .print _ value width _ _, hv, h => by
      rw [Statement.Valid] at hv
      rw [Statement.Literals] at h
      rw [Statement.plain]
      have hwidth : P (width.join.getD 0) := by
        cases hjoin : width.join with
        | none => exact ht.words 0
        | some n => exact h.2 n hjoin
      exact (value.inRange_code ht hv h.1).append
        (AllInRange.append (.of_operation (inRange_pushConstant hwidth)) (inRange_printOpcode? _))
  | .block statements _, hv, h => by
      rw [Statement.Valid] at hv
      rw [Statement.Literals] at h
      rw [Statement.plain]
      exact inRange_plainOfStatements ht statements hv h
  | .leave _, _, _ | .empty, _, _ => by
      rw [Statement.plain]
      exact .nil
  | .missing, hv, _ | .skipped _, hv, _ => by
      rw [Statement.Valid] at hv
      exact hv.elim

/-- All that is written for valid statements is in range. -/
theorem inRange_plainOfStatements (ht : t.Ranged P localCount dataSize) : (ss : List Statement) →
    ValidStatements t ss → StatementLiterals P ss →
    AllInRange P t localCount dataSize (plainOfStatements t ss)
  | [], _, _ => by
      rw [plainOfStatements]
      exact .nil
  | s :: ss, hv, h => by
      rw [ValidStatements] at hv
      rw [StatementLiterals] at h
      rw [plainOfStatements]
      exact (s.inRange_plain ht hv.1 h.1).append (inRange_plainOfStatements ht ss hv.2 h.2)

end

end Tree

/-! ### Reading the operands back -/

namespace Immediate

/-- The values of an operand that its bytes keep. -/
def Keeps (pc : Nat) (x : Int) : Immediate → Prop
  | byte => 0 ≤ x ∧ x < 256
  | signedByte => -128 ≤ x ∧ x ≤ 127
  | word => 0 ≤ x ∧ x < 65536
  | constant => IsWord x
  | offset => Emitter.isFar (x - pc) = false

/-- Such a value is read back from its bytes. -/
theorem Keeps.value_bytes {pc : Nat} {x : Int} {form : Immediate} (h : form.Keeps pc x) :
    form.value pc (form.bytes pc x) = x := by
  cases form with
  | byte => exact (BigEndian.natValue_bytes 1 x).trans (Int.emod_eq_of_lt h.1 h.2)
  | signedByte =>
      obtain ⟨low, high⟩ := h
      have hrange : (BigEndian.range 1 : Int) = 256 := rfl
      change BigEndian.intValue (BigEndian.bytes 1 x) = x
      rw [BigEndian.intValue_bytes (by omega) (by omega)]
  | word => exact (BigEndian.natValue_bytes 2 x).trans (Int.emod_eq_of_lt h.1 h.2)
  | constant =>
      change BigEndian.intValue (BigEndian.bytes 4 x) = x
      rw [BigEndian.intValue, BigEndian.length_bytes, BigEndian.natValue_bytes, Int.emod_bmod]
      exact h
  | offset => exact Instruction.value_offset h

end Immediate

/-- The bytes of an operation at `pc` keep all its operands. -/
def Operation.Keeps (pc : Nat) (o : Operation) : Prop :=
  List.Forall₂ (fun form x => Immediate.Keeps pc x form) o.1.immediates o.2

/-- Operands that their bytes keep are read back as they were written. -/
theorem Instruction.readOperands_eq {pc : Nat} {forms : List Immediate} {xs : List Int}
    (h : List.Forall₂ (fun form x => Immediate.Keeps pc x form) forms xs) :
    readOperands pc forms xs = xs := by
  induction h with
  | nil => rfl
  | cons hx _ ih => exact congrArg₂ List.cons hx.value_bytes ih

/-- An operation whose operands are kept is read back as it was written. -/
theorem Instruction.readBack_eq {i : Instruction} (h : Operation.Keeps i.pc (i.op, i.operands)) :
    i.readBack = i := by
  obtain ⟨pc, op, operands⟩ := i
  exact congrArg (Instruction.mk pc op) (readOperands_eq h)

/-- The limits on the numbers of variables and fields make the operands so small that they are kept. -/
theorem Operation.InRange.keeps {o : Operation} (h : o.InRange IsWord t localCount dataSize)
    (ht : t.Slotted P) (hlocals : localCount ≤ maxLocals) (hglobals : dataSize ≤ maxGlobals)
    (htarget : o.1.hasTarget = false) (pc : Nat) : o.Keeps pc := by
  have hbyte {n : Nat} (hn : n ≤ localCount) : Immediate.byte.Keeps pc n := by
    have : maxLocals = 127 := rfl
    exact ⟨by omega, by omega⟩
  have hword {n : Nat} (hn : n ≤ 32767) : Immediate.word.Keeps pc n := ⟨by omega, by omega⟩
  obtain ⟨op, operands⟩ := o
  cases op with
  | load | store =>
      obtain ⟨slot, rfl, hlt⟩ := h
      exact .cons (hbyte hlt.le) .nil
  | inc =>
      obtain ⟨slot, k, rfl, hlt, hk⟩ := h
      exact .cons (hbyte hlt.le) (.cons hk .nil)
  | getStatic | putStatic =>
      obtain ⟨a, rfl, hlt⟩ := h
      exact .cons (hword (hlt.le.trans hglobals)) .nil
  | getField | putField =>
      obtain ⟨_, rfl, d, name, k, -, rfl, hlt⟩ := h
      exact .cons (hword (hlt.le.trans (ht.size_fields_le _))) .nil
  | new =>
      obtain ⟨name, type, -, rfl⟩ := h
      exact .cons (hword (ht.size_fields_le type)) .nil
  | newArray =>
      rcases h with rfl | rfl
      · exact .cons ⟨by decide, by decide⟩ .nil
      · exact .cons ⟨by decide, by decide⟩ .nil
  | const =>
      obtain ⟨n, rfl, hn⟩ := h
      exact .cons hn .nil
  | load0 | load1 | load2 | load3 | store0 | store1 | store2 | store3 =>
      obtain ⟨rfl, -⟩ := h
      exact .nil
  | jmp | jeq | jne | jlt | jle | jgt | jge | call => cases htarget
  | enter =>
      obtain ⟨k, rfl, hk⟩ := h
      exact .cons (hbyte hk) (.cons (hbyte le_rfl) .nil)
  | trap =>
      obtain rfl : operands = [1] := h
      exact .cons ⟨by decide, by decide⟩ .nil
  | _ =>
      obtain rfl : operands = [] := h
      exact .nil

end MicroJava
