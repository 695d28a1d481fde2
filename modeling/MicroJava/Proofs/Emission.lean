import Mathlib.Logic.Relation
import Mathlib.Tactic.SplitIfs
import MicroJava.Proofs.Ensures

/-!
# What compiling expressions and statements can change

Compiling an expression or a statement adds entries to the log, writes items of symbolic code, makes
types and refers to things; it does nothing else. `Step` lists these changes and `Steps` strings
them together, so what each of them keeps is kept by expressions and statements of any size: the
symbols and scopes (`Steps.table_extends`), the debug information (`Steps.debug`), what was written and
logged before (`Steps.exists_writes`, `Steps.logs`).

An expression writes straight code only, in which neither a jump nor a label occurs; `allowed` says
which items may be written.
-/

namespace MicroJava

/-- Whether execution goes on with the next instruction after an operation that names no address. -/
def Opcode.isStraight (op : Opcode) : Bool :=
  !op.hasTarget && op ≠ .enter && op ≠ .exit && op ≠ .ret && op ≠ .trap

namespace Item

/-- An instruction has the operands that its operation asks for, and only a jump or a call has an
operand that is an address. -/
def WellFormed : Item → Prop
  | instruction op operands => op.hasTarget = false ∧ operands.length = op.immediates.length
  | jump op _ => op.isJump = true
  | _ => True

/-- An item that may stand in the body of a method. -/
def IsInner : Item → Prop
  | instruction op operands => op ≠ .enter ∧ (instruction op operands).WellFormed
  | i => i.WellFormed

/-- An item at which execution goes on with the next one. -/
def IsStraight : Item → Prop
  | instruction op operands => op.isStraight = true ∧ operands.length = op.immediates.length
  | call _ => True
  | _ => False

theorem IsStraight.isInner {i : Item} (h : i.IsStraight) : i.IsInner := by
  cases i with
  | instruction op operands =>
      rcases h with ⟨hop, hlen⟩
      simp only [Opcode.isStraight, Bool.and_eq_true, Bool.not_eq_true', decide_eq_true_eq] at hop
      exact ⟨hop.1.1.1.2, hop.1.1.1.1, hlen⟩
  | call address => trivial
  | _ => exact h.elim

theorem IsInner.wellFormed {i : Item} (h : i.IsInner) : i.WellFormed := by
  cases i with
  | instruction op operands => exact h.2
  | _ => exact h

end Item

/-- A table that differs from another one only in types that were made since. -/
structure SymbolTable.Extends (t t' : SymbolTable) : Prop where
  symbols : t'.symbols = t.symbols
  current : t'.current = t.current
  outer : t'.outer = t.outer
  scopeCount : t'.scopeCount = t.scopeCount
  types : t.types.toList <+: t'.types.toList

namespace SymbolTable.Extends

variable {t t' t'' : SymbolTable}

theorem refl (t : SymbolTable) : t.Extends t := ⟨rfl, rfl, rfl, rfl, List.prefix_rfl⟩

theorem trans (h : t.Extends t') (h' : t'.Extends t'') : t.Extends t'' :=
  ⟨h'.symbols.trans h.symbols, h'.current.trans h.current, h'.outer.trans h.outer,
    h'.scopeCount.trans h.scopeCount, h.types.trans h'.types⟩

theorem symbol (h : t.Extends t') (id : SymbolId) : t'.symbol id = t.symbol id := by
  simp only [SymbolTable.symbol, h.symbols]

end SymbolTable.Extends

/-- In a log reading resumes only after there was a fault. -/
def Event.Orderly (log : List Event) : Prop :=
  ∀ before after, log = before ++ .resync :: after → ∃ m, Event.fault m ∈ before

theorem Event.orderly_nil : Orderly [] := by
  intro before after h
  simp at h

theorem Event.Orderly.concat {log : List Event} (h : Orderly log) {e : Event}
    (he : e = .resync → ∃ m, Event.fault m ∈ log) : Orderly (log ++ [e]) := by
  intro before after heq
  rcases List.eq_nil_or_concat after with rfl | ⟨after, e', rfl⟩
  · rcases List.append_inj' heq rfl with ⟨rfl, hlast⟩
    exact he (List.singleton_inj.1 hlast)
  · rw [List.concat_eq_append, ← List.cons_append, ← List.append_assoc] at heq
    exact h before after (List.append_inj' heq rfl).1

namespace Compiler

variable {α β : Type} {s s' s'' : Compiler}

/-- Some fault was logged. -/
def Faulty (s : Compiler) : Prop := ∃ m, Event.fault m ∈ s.log.toList

/-- More was logged, and reading resumed only after a fault. -/
structure Logs (s s' : Compiler) : Prop where
  isPrefix : s.log.toList <+: s'.log.toList
  orderly : Event.Orderly s.log.toList → Event.Orderly s'.log.toList

namespace Logs

theorem of_eq (h : s'.log = s.log) : s.Logs s' := by
  constructor
  · simp [h]
  · simp [h]

theorem refl (s : Compiler) : s.Logs s := of_eq rfl

theorem trans (h : s.Logs s') (h' : s'.Logs s'') : s.Logs s'' :=
  ⟨h.isPrefix.trans h'.isPrefix, h'.orderly ∘ h.orderly⟩

/-- A fault stays in the log. -/
theorem faulty (h : s.Logs s') (hs : s.Faulty) : s'.Faulty :=
  hs.imp fun _ hm => h.isPrefix.subset hm

end Logs

theorem faulty_fault (m : Message) (s : Compiler) : (fault m s).2.Faulty := by
  refine ⟨m, ?_⟩
  change Event.fault m ∈ (s.log.push (.fault m)).toList
  simp

theorem faulty_skip (m : Message) (more : Nat) (s : Compiler) : (skip m more s).2.Faulty := by
  refine ⟨m, ?_⟩
  change Event.fault m ∈
    ((s.log.push (.fault m) ++ Array.replicate (more + 1) Event.shift).push .resync).toList
  simp

/-- The items were written one after the other. -/
structure Writes (s : Compiler) (is : List Item) (s' : Compiler) : Prop where
  items : s'.items.toList = s.items.toList ++ is
  code : s'.code = is.foldl Emitter.write s.code

namespace Writes

variable {is js : List Item}

theorem nil (hi : s'.items = s.items) (hc : s'.code = s.code) : s.Writes [] s' :=
  ⟨by simp [hi], hc⟩

theorem append (h : s.Writes is s') (h' : s'.Writes js s'') : s.Writes (is ++ js) s'' :=
  ⟨by rw [h'.items, h.items, List.append_assoc], by rw [h'.code, h.code, List.foldl_append]⟩

theorem unique (h : s.Writes is s') (h' : s.Writes js s') : is = js :=
  List.append_cancel_left (h.items.symm.trans h'.items)

end Writes

/-- A single change while an expression or a statement is compiled. Reading resumes only where there
was a fault. -/
inductive Step (allowed : Item → Prop) : Compiler → Compiler → Prop where
  | record {s : Compiler} {e : Event} (h : e = .resync → s.Faulty) :
    Step allowed s { s with log := s.log.push e }
  | refer {s : Compiler} {rs : List Reference} :
    Step allowed s { s with stray := s.stray.or (rs.find? fun r => !s.knows r) }
  | write {s : Compiler} {i : Item} (h : allowed i) :
    Step allowed s { s with code := s.code.write i, items := s.items.push i }
  | addType {s : Compiler} {type : Ty} :
    Step allowed s { s with table := s.table.addType type }

/-- Changes one after the other. -/
abbrev Steps (allowed : Item → Prop) : Compiler → Compiler → Prop :=
  Relation.ReflTransGen (Step allowed)

namespace Steps

variable {allowed allowed' : Item → Prop}

theorem mono (h : ∀ i, allowed i → allowed' i) (hs : Steps allowed s s') : Steps allowed' s s' := by
  refine Relation.ReflTransGen.mono ?_ _ _ hs
  rintro s s' (hr | _ | hi | _)
  · exact .record hr
  · exact .refer
  · exact .write (h _ hi)
  · exact .addType

theorem table_extends (hs : Steps allowed s s') : s.table.Extends s'.table := by
  induction hs with
  | refl => exact .refl _
  | tail _ h ih =>
      apply ih.trans
      cases h with
      | addType => exact ⟨rfl, rfl, rfl, rfl, by simp [SymbolTable.addType]⟩
      | _ => exact .refl _

theorem debug (hs : Steps allowed s s') : s'.debug = s.debug := by
  induction hs with
  | refl => rfl
  | tail _ h ih => cases h <;> exact ih

theorem exists_writes (hs : Steps allowed s s') :
    ∃ items, s.Writes items s' ∧ ∀ i ∈ items, allowed i := by
  induction hs with
  | refl => exact ⟨[], .nil rfl rfl, by simp⟩
  | @tail b c _ h ih =>
      rcases ih with ⟨items, hw, hi⟩
      cases h with
      | @write i ha =>
          refine ⟨items ++ [i], hw.append ⟨by simp, rfl⟩, ?_⟩
          intro j hj
          rcases List.mem_append.1 hj with hj | hj
          · exact hi j hj
          · rw [List.mem_singleton.1 hj]
            exact ha
      | _ => exact ⟨items, ⟨hw.items, hw.code⟩, hi⟩

/-- Nothing is written if nothing may be. -/
theorem writes_nil (hs : Steps (fun _ => False) s s') : s.Writes [] s' := by
  obtain ⟨is, hw, hnone⟩ := hs.exists_writes
  obtain rfl : is = [] := List.eq_nil_iff_forall_not_mem.2 hnone
  exact hw

theorem logs (hs : Steps allowed s s') : s.Logs s' := by
  induction hs with
  | refl => exact .refl _
  | tail _ h ih =>
      apply ih.trans
      cases h with
      | record he =>
          refine ⟨by simp, fun ho => ?_⟩
          rw [Array.toList_push]
          exact ho.concat he
      | _ => exact .of_eq rfl

end Steps

/-! ### Single steps -/

/-- A step that, in whatever state, writes allowed items only and changes nothing but what `Step`
lists. -/
def Emits (allowed : Item → Prop) (x : CompilerM α) : Prop :=
  ∀ s, Steps allowed s (x s).2

namespace Emits

variable {allowed : Item → Prop}

theorem pure {a : α} : Emits allowed (Pure.pure a) := fun _ => .refl

theorem bind {x : CompilerM α} {f : α → CompilerM β} (hx : Emits allowed x)
    (hf : ∀ a, Emits allowed (f a)) : Emits allowed (x >>= f) :=
  fun s => (hx s).trans (hf _ _)

theorem mono {allowed' : Item → Prop} {x : CompilerM α} (h : ∀ i, allowed i → allowed' i)
    (hx : Emits allowed x) : Emits allowed' x :=
  fun s => (hx s).mono h

theorem get : Emits allowed (MonadState.get : CompilerM Compiler) := fun _ => .refl

theorem forM {γ : Type} {g : γ → CompilerM PUnit} {l : List γ} (h : ∀ c ∈ l, Emits allowed (g c)) :
    Emits allowed (l.forM g) := by
  induction l with
  | nil => exact pure
  | cons c l ih =>
      refine (h c List.mem_cons_self).bind fun _ => ih ?_
      exact fun d hd => h d (List.mem_cons_of_mem c hd)

theorem fault (m : Message) : Emits allowed (fault m) :=
  fun _ => .single (.record (by simp))

theorem shift : Emits allowed shift :=
  fun _ => .single (.record (by simp))

theorem refer (rs : List Reference) : Emits allowed (refer rs) :=
  fun _ => .single .refer

theorem write {i : Item} (h : allowed i) : Emits allowed (write i) :=
  fun _ => .single (.write h)

theorem faultIf (c : Bool) (m : Message) : Emits allowed (faultIf c m) := by
  unfold Compiler.faultIf
  split
  · exact fault m
  · exact pure

theorem shiftUnless (first : Bool) : Emits allowed (shiftUnless first) := by
  unfold Compiler.shiftUnless
  split
  · exact pure
  · exact shift

theorem expect (kind : Kind) (found : Bool) : Emits allowed (expect kind found) := by
  unfold Compiler.expect
  split
  · exact shift
  · exact fault _

theorem expectName (name : Option String) : Emits allowed (expectName name) := by
  cases name with
  | none => exact (fault _).bind fun _ => pure
  | some n => exact shift.bind fun _ => pure

theorem expectNumber (substitute : Int) (n : Option Int) :
    Emits allowed (expectNumber substitute n) := by
  cases n with
  | none => exact (fault _).bind fun _ => pure
  | some k => exact shift.bind fun _ => pure

theorem shifts (n : Nat) : Emits allowed (shifts n) := by
  intro s
  change Steps allowed s { s with log := s.log ++ Array.replicate n .shift }
  induction n with
  | zero => simpa using Relation.ReflTransGen.refl
  | succ n ih =>
      rw [Array.replicate_succ, Array.append_push]
      exact ih.tail (.record (by simp))

/-- Reading may resume after tokens were skipped, because the first of them is a fault. -/
theorem skip (m : Message) (more : Nat) : Emits allowed (skip m more) := by
  intro s
  have hskipped : Steps allowed (Compiler.fault m s).2 _ := shifts (more + 1) _
  exact ((fault m s).trans hskipped).tail (.record fun _ => hskipped.logs.faulty (faulty_fault m s))

/-! ### The symbol table -/

theorem symbol (id : SymbolId) : Emits allowed (symbol id) :=
  (refer _).bind fun _ => get.bind fun _ => pure

theorem symbols (ids : Array SymbolId) : Emits allowed (symbols ids) :=
  (refer _).bind fun _ => get.bind fun _ => pure

theorem fields (type : Ty) : Emits allowed (fields type) :=
  (refer _).bind fun _ => get.bind fun _ => pure

theorem inspect (types : List Ty) : Emits allowed (inspect types) := refer _

theorem find (name : String) : Emits allowed (find name) := by
  refine get.bind fun _ => (refer _).bind fun _ => get.bind fun s => ?_
  split
  · exact pure
  · exact (fault _).bind fun _ => pure

theorem findField (type : Ty) (name : String) : Emits allowed (findField type name) := by
  refine (fields type).bind fun fs => (refer _).bind fun _ => get.bind fun s => ?_
  split
  · exact pure
  · exact (fault _).bind fun _ => pure

theorem newArray (element : Ty) : Emits allowed (newArray element) :=
  fun _ => .single .addType

/-! ### Operands -/

theorem emitAll {operations : List Operation}
    (h : ∀ o ∈ operations, allowed (.instruction o.1 o.2)) : Emits allowed (emitAll operations) :=
  forM fun o ho => write (h o ho)

end Emits

end Compiler

theorem pushConstant_isStraight (n : Int) :
    (Item.instruction (pushConstant n).1 (pushConstant n).2).IsStraight := by
  unfold pushConstant
  split_ifs <;> exact ⟨rfl, rfl⟩

theorem pushLocal_isStraight (slot : Int) :
    (Item.instruction (pushLocal slot).1 (pushLocal slot).2).IsStraight := by
  unfold pushLocal
  split_ifs <;> exact ⟨rfl, rfl⟩

theorem popLocal_isStraight (slot : Int) :
    (Item.instruction (popLocal slot).1 (popLocal slot).2).IsStraight := by
  unfold popLocal
  split_ifs <;> exact ⟨rfl, rfl⟩

theorem Operand.loadCode?_isStraight {x : Operand} {operations : List Operation}
    (h : x.loadCode? = some operations) {o : Operation} (ho : o ∈ operations) :
    (Item.instruction o.1 o.2).IsStraight := by
  rcases x with ⟨location, type⟩
  cases location <;> simp only [loadCode?, Option.some.injEq, reduceCtorEq] at h <;> subst h
  case constant n => exact List.mem_singleton.1 ho ▸ pushConstant_isStraight n
  case localVar slot => exact List.mem_singleton.1 ho ▸ pushLocal_isStraight slot
  case globalVar address => exact List.mem_singleton.1 ho ▸ ⟨rfl, rfl⟩
  case stack => simp at ho
  case field offset => exact List.mem_singleton.1 ho ▸ ⟨rfl, rfl⟩
  case element =>
    rw [List.mem_singleton.1 ho]
    dsimp only
    split <;> exact ⟨rfl, rfl⟩

theorem Operand.storeCode?_isStraight {x : Operand} {operations : List Operation}
    (h : x.storeCode? = some operations) {o : Operation} (ho : o ∈ operations) :
    (Item.instruction o.1 o.2).IsStraight := by
  rcases x with ⟨location, type⟩
  cases location <;> simp only [storeCode?, Option.some.injEq, reduceCtorEq] at h <;> subst h
  case localVar slot => exact List.mem_singleton.1 ho ▸ popLocal_isStraight slot
  case globalVar address => exact List.mem_singleton.1 ho ▸ ⟨rfl, rfl⟩
  case field offset => exact List.mem_singleton.1 ho ▸ ⟨rfl, rfl⟩
  case element =>
    rw [List.mem_singleton.1 ho]
    dsimp only
    split <;> exact ⟨rfl, rfl⟩

theorem Operand.duplicateCode_isStraight {x : Operand} {o : Operation}
    (ho : o ∈ x.duplicateCode) : (Item.instruction o.1 o.2).IsStraight := by
  rcases x with ⟨location, type⟩
  cases location <;> simp only [duplicateCode, List.not_mem_nil] at ho
  case field offset => exact List.mem_singleton.1 ho ▸ ⟨rfl, rfl⟩
  case element => exact List.mem_singleton.1 ho ▸ ⟨rfl, rfl⟩

theorem powerCode_isStraight {k : Int} {o : Operation} (ho : o ∈ powerCode k) :
    (Item.instruction o.1 o.2).IsStraight := by
  unfold powerCode at ho
  split at ho
  · simp only [List.mem_cons, List.not_mem_nil, or_false] at ho
    rcases ho with rfl | rfl <;> exact ⟨rfl, rfl⟩
  · rcases List.mem_append.1 ho with ho | ho <;> rw [List.eq_of_mem_replicate ho] <;>
      exact ⟨rfl, rfl⟩


/-! ### Expressions -/

namespace Compiler.Emits

variable {allowed : Item → Prop}

theorem emit {op : Opcode} {operands : List Int} (hop : op.isStraight = true)
    (hlen : operands.length = op.immediates.length) :
    Emits Item.IsStraight (emit op operands) :=
  write ⟨hop, hlen⟩

theorem operandOf (id : SymbolId) : Emits allowed (operandOf id) := by
  refine (symbol id).bind fun s => ?_
  split
  · exact pure
  · exact (fault _).bind fun _ => pure

theorem load (x : Operand) : Emits Item.IsStraight (load x) := by
  unfold Compiler.load
  split
  · next operations h =>
      exact (emitAll fun _ => Operand.loadCode?_isStraight h).bind fun _ => pure
  · exact (fault _).bind fun _ => pure

theorem store (x : Operand) : Emits Item.IsStraight (store x) := by
  unfold Compiler.store
  split
  · next operations h => exact emitAll fun _ => Operand.storeCode?_isStraight h
  · exact fault _

theorem assign (x y : Operand) : Emits Item.IsStraight (assign x y) :=
  (load y).bind fun _ => (store x).bind fun _ => pure

theorem prepareUpdate (x : Operand) : Emits Item.IsStraight (prepareUpdate x) :=
  (emitAll fun _ => Operand.duplicateCode_isStraight).bind fun _ => (load x).bind fun _ => pure

theorem update (x y : Operand) {op : Opcode} (hop : op.isStraight = true)
    (hnone : op.immediates = []) : Emits Item.IsStraight (update x y op) :=
  (load y).bind fun _ => (emit hop (by simp [hnone])).bind fun _ =>
    (store x).bind fun _ => pure

theorem increment (x : Operand) (n : Int) : Emits Item.IsStraight (increment x n) := by
  have general : Emits Item.IsStraight (do
      Compiler.prepareUpdate x
      let _ ← Compiler.update x (Operand.constant n .int) .add) :=
    (prepareUpdate x).bind fun _ => (update x _ rfl rfl).bind fun _ => pure
  unfold Compiler.increment
  split
  · split
    · exact emit rfl rfl
    · exact general
  · exact general

theorem call (x : Operand) : Emits Item.IsStraight (call x) := by
  unfold Compiler.call
  split
  · split
    · exact pure
    · split
      · exact emit rfl rfl
      · exact (symbol _).bind fun s => write trivial
  · exact pure

theorem formalTypes (x : Operand) : Emits allowed (formalTypes x) := by
  unfold MicroJava.formalTypes
  split
  · exact (symbol _).bind fun s => (symbols _).bind fun _ => pure
  · exact (fault _).bind fun _ => pure

theorem findType (name : String) : Emits allowed (findType name) :=
  (find name).bind fun _ => (symbol _).bind fun _ => (faultIf _ _).bind fun _ => pure

theorem requireInts (x y : Operand) : Emits allowed (requireInts x y) := faultIf _ _

theorem passArgument (x : Operand) (formals : List Ty) : Emits allowed (passArgument x formals) := by
  cases formals with
  | nil => exact (fault _).bind fun _ => pure
  | cons formal formals => exact (inspect _).bind fun _ => (faultIf _ _).bind fun _ => pure

theorem passArguments (x : Operand) {pass : List Ty → CompilerM (List Ty)} (closed : Bool)
    (h : ∀ formals, Emits allowed (pass formals)) : Emits allowed (passArguments x pass closed) :=
  shift.bind fun _ => (formalTypes x).bind fun _ => (h _).bind fun _ =>
    (faultIf _ _).bind fun _ => expect _ _

theorem negate (x : Operand) : Emits Item.IsStraight (negate x) := by
  unfold MicroJava.negate
  split
  · exact pure
  · exact (load x).bind fun _ => (emit rfl rfl).bind fun _ => pure

end Compiler.Emits

namespace Tree

open Compiler

theorem AddOp.isStraight_opcode (op : AddOp) : op.opcode.isStraight = true := by
  cases op <;> rfl

theorem AddOp.immediates_opcode (op : AddOp) : op.opcode.immediates = [] := by
  cases op <;> rfl

theorem MulOp.isStraight_opcode (op : MulOp) : op.opcode.isStraight = true := by
  cases op <;> rfl

theorem MulOp.immediates_opcode (op : MulOp) : op.opcode.immediates = [] := by
  cases op <;> rfl

mutual

/-- An expression writes straight code. -/
theorem Expr.emits_compile : (e : Expr) → Emits Item.IsStraight e.compile
  | .term t => by
      rw [Expr.compile]
      exact t.emits_compile
  | .neg t => by
      rw [Expr.compile]
      exact .bind .shift fun _ => t.emits_compile.bind fun x =>
        (Emits.faultIf _ _).bind fun _ => .negate x
  | .add e op t => by
      rw [Expr.compile]
      exact e.emits_compile.bind fun _ => Emits.shift.bind fun _ => (Emits.load _).bind fun x =>
        t.emits_compile.bind fun _ => (Emits.load _).bind fun y =>
        (Emits.requireInts x y).bind fun _ =>
        (Emits.emit op.isStraight_opcode (by simp [op.immediates_opcode])).bind fun _ => .pure

theorem Term.emits_compile : (t : Term) → Emits Item.IsStraight t.compile
  | .factor f => by
      rw [Term.compile]
      exact f.emits_compile
  | .mul t op f => by
      rw [Term.compile]
      exact t.emits_compile.bind fun _ => Emits.shift.bind fun _ => (Emits.load _).bind fun x =>
        f.emits_compile.bind fun _ => (Emits.load _).bind fun y =>
        (Emits.requireInts x y).bind fun _ =>
        (Emits.emit op.isStraight_opcode (by simp [op.immediates_opcode])).bind fun _ => .pure
  | .power t exponent => by
      rw [Term.compile]
      exact t.emits_compile.bind fun _ => Emits.shift.bind fun _ =>
        (Emits.expectNumber _ _).bind fun _ => (Emits.faultIf _ _).bind fun _ =>
        (Emits.faultIf _ _).bind fun _ => (Emits.load _).bind fun _ =>
        (Emits.emitAll fun _ => powerCode_isStraight).bind fun _ => .pure

theorem Factor.emits_compile : (f : Factor) → Emits Item.IsStraight f.compile
  | .designator d => by
      rw [Factor.compile]
      exact d.emits_compile
  | .call d arguments closed => by
      rw [Factor.compile]
      exact d.emits_compile.bind fun x =>
        (Emits.passArguments x closed (emits_compileArguments true arguments)).bind fun _ =>
        (Emits.faultIf _ _).bind fun _ => (Emits.call x).bind fun _ => .pure
  | .number n => by
      rw [Factor.compile]
      exact Emits.shift.bind fun _ => .pure
  | .char n => by
      rw [Factor.compile]
      exact Emits.shift.bind fun _ => .pure
  | .newObject name => by
      rw [Factor.compile]
      exact Emits.shift.bind fun _ => (Emits.expectName _).bind fun _ =>
        (Emits.findType _).bind fun type => (Emits.inspect _).bind fun _ =>
        (Emits.faultIf _ _).bind fun _ => (Emits.fields type).bind fun _ =>
        (Emits.emit rfl rfl).bind fun _ => .pure
  | .newArray name size closed => by
      rw [Factor.compile]
      exact Emits.shift.bind fun _ => (Emits.expectName _).bind fun _ =>
        (Emits.findType _).bind fun element => Emits.shift.bind fun _ =>
        size.emits_compile.bind fun _ => (Emits.faultIf _ _).bind fun _ =>
        (Emits.load _).bind fun _ => (Emits.emit rfl rfl).bind fun _ =>
        (Emits.expect _ _).bind fun _ => (Emits.newArray element).bind fun _ => .pure
  | .group e closed => by
      rw [Factor.compile]
      exact Emits.shift.bind fun _ => e.emits_compile.bind fun _ =>
        (Emits.expect _ _).bind fun _ => .pure
  | .missing => by
      rw [Factor.compile]
      exact (Emits.fault _).bind fun _ => .pure

theorem Designator.emits_compile : (d : Designator) → Emits Item.IsStraight d.compile
  | .name n => by
      rw [Designator.compile]
      exact (Emits.expectName n).bind fun _ => (Emits.find _).bind fun id => .operandOf id
  | .field d n => by
      rw [Designator.compile]
      exact d.emits_compile.bind fun _ => (Emits.inspect _).bind fun _ =>
        (Emits.faultIf _ _).bind fun _ => Emits.shift.bind fun _ => (Emits.load _).bind fun x =>
        (Emits.expectName n).bind fun _ => (Emits.findField _ _).bind fun _ =>
        (Emits.symbol _).bind fun _ => .pure
  | .element d index closed => by
      rw [Designator.compile]
      exact d.emits_compile.bind fun _ => Emits.shift.bind fun _ => (Emits.load _).bind fun x =>
        (Emits.inspect _).bind fun _ => (Emits.faultIf _ _).bind fun _ =>
        index.emits_compile.bind fun _ => (Emits.faultIf _ _).bind fun _ =>
        (Emits.load _).bind fun _ => (Emits.expect _ _).bind fun _ => .pure

theorem emits_compileArguments (first : Bool) :
    (arguments : List Expr) → (formals : List Ty) →
      Emits Item.IsStraight (compileArguments first arguments formals)
  | [], formals => by
      rw [compileArguments]
      exact .pure
  | e :: es, formals => by
      rw [compileArguments]
      exact (Emits.shiftUnless first).bind fun _ => e.emits_compile.bind fun _ =>
        (Emits.load _).bind fun x => (Emits.passArgument x formals).bind fun _ =>
        emits_compileArguments false es _

end

theorem emits_compileRelation {allowed : Item → Prop} (r : Option Relation) :
    Emits allowed (compileRelation r) := by
  cases r with
  | none => exact (Emits.fault _).bind fun _ => .pure
  | some r => exact Emits.shift.bind fun _ => .pure

theorem Comparison.emits_compile (c : Comparison) : Emits Item.IsStraight c.compile :=
  c.left.emits_compile.bind fun _ => (Emits.load _).bind fun _ =>
    (emits_compileRelation _).bind fun _ => c.right.emits_compile.bind fun _ =>
    (Emits.load _).bind fun _ => (Emits.inspect _).bind fun _ => (Emits.faultIf _ _).bind fun _ =>
    (Emits.faultIf _ _).bind fun _ => .pure

end Tree

/-! ### Statements -/

theorem Relation.isJump_jump (r : Relation) : r.jump.isJump = true := by
  cases r <;> rfl

namespace Compiler.Emits

theorem inner {α : Type} {x : CompilerM α} (h : Emits Item.IsStraight x) :
    Emits Item.IsInner x :=
  h.mono fun _ => Item.IsStraight.isInner

theorem newLabel : Emits Item.IsInner newLabel :=
  get.bind fun _ => (write trivial).bind fun _ => pure

theorem place (l : Label) : Emits Item.IsInner (place l) :=
  get.bind fun _ => (refer _).bind fun _ => write trivial

theorem jumpWith {op : Opcode} (h : op.isJump = true) (l : Label) :
    Emits Item.IsInner (jumpWith op l) :=
  (refer _).bind fun _ => write h

theorem jump (l : Label) : Emits Item.IsInner (jump l) := jumpWith rfl l

theorem jumpIf (r : Relation) (l : Label) : Emits Item.IsInner (jumpIf r l) :=
  jumpWith r.isJump_jump l

theorem jumpUnless (r : Relation) (l : Label) : Emits Item.IsInner (jumpUnless r l) :=
  jumpWith r.negation.isJump_jump l

theorem requireAssignable (x : Operand) : Emits Item.IsStraight (requireAssignable x) := faultIf _ _

theorem compileStep (x : Operand) (n : Int) : Emits Item.IsStraight (compileStep x n) :=
  (faultIf _ _).bind fun _ => (requireAssignable x).bind fun _ => shift.bind fun _ => increment x n

end Compiler.Emits

namespace Tree

open Compiler

theorem AssignOp.isStraight_of_opcode? {op : AssignOp} {operation : Opcode}
    (h : op.opcode? = some operation) :
    operation.isStraight = true ∧ operation.immediates = [] := by
  cases op <;> cases h <;> exact ⟨rfl, rfl⟩

theorem Conjunction.emits_compile (whenFalse : Label) :
    (cs : Conjunction) → Emits Item.IsInner (cs.compile whenFalse)
  | .comparison c => c.emits_compile.inner
  | .and cs c => (cs.emits_compile whenFalse).bind fun r => (Emits.jumpUnless r _).bind fun _ =>
      Emits.shift.bind fun _ => c.emits_compile.inner

theorem Condition.emits_compileWith (whenTrue whenFalse : Label) :
    (cs : Condition) → Emits Item.IsInner (cs.compileWith whenTrue whenFalse)
  | .conjunction c => (c.emits_compile whenFalse).bind fun _ => .pure
  | .or cs c => (cs.emits_compileWith whenTrue whenFalse).bind fun (r, f) =>
      (Emits.jumpIf r _).bind fun _ => Emits.shift.bind fun _ => (Emits.place f).bind fun _ =>
      Emits.newLabel.bind fun f => (c.emits_compile f).bind fun _ => .pure

theorem Condition.emits_compile (cs : Condition) : Emits Item.IsInner cs.compile :=
  Emits.newLabel.bind fun t => Emits.newLabel.bind fun f =>
    (cs.emits_compileWith t f).bind fun _ => .pure

theorem emits_compileGuard (opened : Bool) (cs : Condition) (closed : Bool) :
    Emits Item.IsInner (compileGuard opened cs closed) :=
  (Emits.expect _ _).bind fun _ => cs.emits_compile.bind fun (r, _, _) =>
    (Emits.jumpUnless r _).bind fun _ => (Emits.place _).bind fun _ =>
    (Emits.expect _ _).bind fun _ => .pure

theorem emits_compileAssignment (x : Operand) (op : AssignOp) (value : Expr) :
    Emits Item.IsStraight (compileAssignment x op value) := by
  unfold compileAssignment
  split
  · exact value.emits_compile.bind fun _ => (Emits.inspect _).bind fun _ =>
      (Emits.faultIf _ _).bind fun _ => (Emits.assign _ _).bind fun _ => .pure
  · next operation h =>
      rcases AssignOp.isStraight_of_opcode? h with ⟨hop, hnone⟩
      exact (Emits.prepareUpdate x).bind fun _ => value.emits_compile.bind fun _ =>
        (Emits.requireInts _ _).bind fun _ => (Emits.update _ _ hop hnone).bind fun _ => .pure

theorem Action.emits_compile (x : Operand) : (a : Action) → Emits Item.IsStraight (a.compile x)
  | .assign op value => (Emits.requireAssignable x).bind fun _ => Emits.shift.bind fun _ =>
      emits_compileAssignment x op value
  | .call arguments closed => by
      refine (Emits.passArguments x closed (emits_compileArguments true arguments)).bind
        fun _ => (Emits.call x).bind fun _ => ?_
      split
      · exact Emits.emit rfl rfl
      · exact .pure
  | .increment => Emits.compileStep x 1
  | .decrement => Emits.compileStep x (-1)
  | .missing => Emits.fault _

theorem emits_compileBreak (behindLoop : Option Label) :
    Emits Item.IsInner (compileBreak behindLoop) := by
  cases behindLoop with
  | none => exact .fault _
  | some l => exact .jump l

theorem emits_compileReturned (result : Ty) (value : Option Expr) :
    Emits Item.IsStraight (compileReturned result value) := by
  cases value with
  | none => exact .faultIf _ _
  | some e =>
      exact (Emits.faultIf _ _).bind fun _ => e.emits_compile.bind fun _ =>
        (Emits.inspect _).bind fun _ => (Emits.faultIf _ _).bind fun _ =>
        (Emits.load _).bind fun _ => .pure

theorem emits_readValue (type : Ty) : Emits Item.IsStraight (readValue type) := by
  cases type with
  | int => exact .emit rfl rfl
  | char => exact .emit rfl rfl
  | _ => exact .fault _

theorem emits_compileWidth {allowed : Item → Prop} (width : Option (Option Int)) :
    Emits allowed (compileWidth width) := by
  cases width with
  | none => exact .pure
  | some n => exact Emits.shift.bind fun _ => .expectNumber 0 n

theorem print_isStraight (n : Int) (type : Ty) {o : Operation}
    (ho : o ∈ [pushConstant n, ((printOpcode? type).getD .print, [])]) :
    (Item.instruction o.1 o.2).IsStraight := by
  simp only [List.mem_cons, List.not_mem_nil, or_false] at ho
  rcases ho with rfl | rfl
  · exact pushConstant_isStraight n
  · cases type <;> exact ⟨rfl, rfl⟩

mutual

/-- A statement writes nothing that may not stand in the body of a method. -/
theorem Statement.emits_compile (behindLoop : Option Label) (result : Ty) :
    (s : Statement) → Emits Item.IsInner (s.compile behindLoop result)
  | .action d a ended => by
      rw [Statement.compile]
      exact (Emits.write trivial).bind fun _ => d.emits_compile.inner.bind fun x =>
        (a.emits_compile x).inner.bind fun _ => .expect _ _
  | .ifThen opened condition closed body => by
      rw [Statement.compile]
      exact (Emits.write trivial).bind fun _ => Emits.shift.bind fun _ =>
        (emits_compileGuard opened condition closed).bind fun _ =>
        (body.emits_compile behindLoop result).bind fun _ => .place _
  | .ifThenElse opened condition closed body other => by
      rw [Statement.compile]
      exact (Emits.write trivial).bind fun _ => Emits.shift.bind fun _ =>
        (emits_compileGuard opened condition closed).bind fun _ =>
        (body.emits_compile behindLoop result).bind fun _ => Emits.shift.bind fun _ =>
        Emits.newLabel.bind fun _ => (Emits.jump _).bind fun _ => (Emits.place _).bind fun _ =>
        (other.emits_compile behindLoop result).bind fun _ => .place _
  | .whileDo opened condition closed body => by
      rw [Statement.compile]
      exact (Emits.write trivial).bind fun _ => Emits.shift.bind fun _ =>
        Emits.newLabel.bind fun _ => (Emits.place _).bind fun _ =>
        (emits_compileGuard opened condition closed).bind fun whenFalse =>
        (body.emits_compile (some whenFalse) result).bind fun _ =>
        (Emits.jump _).bind fun _ => .place _
  | .leave ended => by
      rw [Statement.compile]
      exact (Emits.write trivial).bind fun _ => Emits.shift.bind fun _ =>
        (emits_compileBreak behindLoop).bind fun _ => .expect _ _
  | .give value ended => by
      rw [Statement.compile]
      exact (Emits.write trivial).bind fun _ => Emits.shift.bind fun _ =>
        (emits_compileReturned result value).inner.bind fun _ =>
        (Emits.write ⟨by decide, rfl, rfl⟩).bind fun _ =>
        (Emits.write ⟨by decide, rfl, rfl⟩).bind fun _ => .expect _ _
  | .read opened d closed ended => by
      rw [Statement.compile]
      exact (Emits.write trivial).bind fun _ => Emits.shift.bind fun _ =>
        (Emits.expect _ _).bind fun _ => d.emits_compile.inner.bind fun x =>
        (Emits.requireAssignable x).inner.bind fun _ => (emits_readValue x.type).inner.bind fun _ =>
        (Emits.assign x _).inner.bind fun _ => (Emits.expect _ _).bind fun _ => .expect _ _
  | .print opened value width closed ended => by
      rw [Statement.compile]
      exact (Emits.write trivial).bind fun _ => Emits.shift.bind fun _ =>
        (Emits.expect _ _).bind fun _ => value.emits_compile.inner.bind fun x =>
        (Emits.faultIf _ _).bind fun _ => (Emits.load x).inner.bind fun _ =>
        (emits_compileWidth width).bind fun n =>
        (Emits.emitAll fun _ => print_isStraight n x.type).inner.bind fun _ =>
        (Emits.expect _ _).bind fun _ => .expect _ _
  | .block statements closed => by
      rw [Statement.compile]
      exact (Emits.write trivial).bind fun _ => Emits.shift.bind fun _ =>
        (emits_compileStatements behindLoop result statements).bind fun _ => .expect _ _
  | .empty => by
      rw [Statement.compile]
      exact (Emits.write trivial).bind fun _ => .shift
  | .missing => by
      rw [Statement.compile]
      exact (Emits.write trivial).bind fun _ => .fault _
  | .skipped more => by
      rw [Statement.compile]
      exact (Emits.write trivial).bind fun _ => .skip _ more

theorem emits_compileStatements (behindLoop : Option Label) (result : Ty) :
    (ss : List Statement) → Emits Item.IsInner (compileStatements behindLoop result ss)
  | [] => by
      rw [compileStatements]
      exact .pure
  | s :: ss => by
      rw [compileStatements]
      exact (s.emits_compile behindLoop result).bind fun _ =>
        emits_compileStatements behindLoop result ss

end

end Tree

end MicroJava
