import MicroJava.Proofs.TableHistory
import MicroJava.Proofs.Typing

/-!
# Steps that check

What an expression is made of is checked here and there while it is compiled, so two judgements follow the
faults through the steps. `Vouches t x P` says that a step which ends without a fault has a value that `P` holds
of, and `Succeeds t x P` that the step adds no fault and has such a value. Compiling an expression makes array
types at most, so all the while the table answers as `t` does (`SymbolTable.Sees`).
-/

namespace MicroJava

open Compiler

/-! ### What is asked of a table -/

/-- Both tables give the same answers about names and types. -/
structure SymbolTable.Sees (t t' : SymbolTable) : Prop where
  symbol : ∀ id, t'.symbol id = t.symbol id
  lookup? : ∀ name, t'.lookup? name = t.lookup? name
  fields : ∀ type, t'.fields type = t.fields type

theorem SymbolTable.exists_of_type? {t : SymbolTable} {name : String} {type : Ty}
    (h : t.type? (some name) = some type) : ∃ id, t.lookup? name = some id ∧
      (t.symbol id).kind = .type ∧ (t.symbol id).type = type := by
  simpa [type?, Option.bind_eq_some_iff] using h

namespace SymbolTable.Sees

variable {t t' t'' : SymbolTable}

theorem refl (t : SymbolTable) : t.Sees t := ⟨fun _ => rfl, fun _ => rfl, fun _ => rfl⟩

theorem trans (h : t.Sees t') (h' : t'.Sees t'') : t.Sees t'' :=
  ⟨fun id => (h'.symbol id).trans (h.symbol id), fun name => (h'.lookup? name).trans (h.lookup? name),
    fun type => (h'.fields type).trans (h.fields type)⟩

theorem field? (h : t.Sees t') (type : Ty) (name : String) : t'.field? type name = t.field? type name := by
  simp only [SymbolTable.field?, h.fields, h.symbol]

theorem addType (h : t.Sees t') (type : Ty) : t.Sees (t'.addType type) :=
  h.trans ⟨fun _ => rfl, fun _ => rfl, fields_addType t' type⟩

end SymbolTable.Sees

namespace Compiler

variable {α β : Type} {t : SymbolTable}

/-- In a state that sees the table the step adds no fault, and `P` holds of its value. -/
def Succeeds (t : SymbolTable) (x : CompilerM α) (P : α → Prop) : Prop :=
  ∀ s : Compiler, t.Sees s.table → Ensures x s fun a s' =>
    t.Sees s'.table ∧ s.Logs s' ∧ (¬ s.Faulty → ¬ s'.Faulty) ∧ P a

/-- If the step ends without a fault in a state that sees the table, then `P` holds of its value. -/
def Vouches (t : SymbolTable) (x : CompilerM α) (P : α → Prop) : Prop :=
  ∀ s : Compiler, t.Sees s.table → Ensures x s fun a s' =>
    t.Sees s'.table ∧ s.Logs s' ∧ (¬ s'.Faulty → P a)

variable {x : CompilerM α} {f : α → CompilerM β} {P P' : α → Prop} {R : β → Prop}

namespace Succeeds

theorem mono (hx : Succeeds t x P) (h : ∀ a, P a → P' a) : Succeeds t x P' :=
  fun s hs => (hx s hs).mono fun a _ ⟨hsees, hlogs, hclean, hp⟩ => ⟨hsees, hlogs, hclean, h a hp⟩

theorem bind (hx : Succeeds t x P) (hf : ∀ a, P a → Succeeds t (f a) R) : Succeeds t (x >>= f) R :=
  fun s hs => (hx s hs).bind fun a s' ⟨hsees, hlogs, hclean, hp⟩ =>
    (hf a hp s' hsees).mono fun _ _ ⟨hsees', hlogs', hclean', hr⟩ =>
      ⟨hsees', hlogs.trans hlogs', hclean' ∘ hclean, hr⟩

/-- What the first step ends with does not matter. -/
theorem next (hx : Succeeds t x P) (hf : ∀ a, Succeeds t (f a) R) : Succeeds t (x >>= f) R :=
  hx.bind fun a _ => hf a

/-- It is known what the first step ends with. -/
theorem known {a : α} (hx : Succeeds t x (· = a)) (hf : Succeeds t (f a) R) : Succeeds t (x >>= f) R :=
  hx.bind fun _ h => h ▸ hf

theorem pure {a : α} (h : P a) : Succeeds t (Pure.pure a) P :=
  fun s hs => ⟨hs, .refl s, id, h⟩

theorem get_bind {f : Compiler → CompilerM β} (h : ∀ s : Compiler, t.Sees s.table → Succeeds t (f s) R) :
    Succeeds t (MonadState.get >>= f) R :=
  fun s hs => h s hs s hs

/-- The step changes neither the table nor the log. -/
theorem quiet (h : ∀ s, (x s).2.table = s.table ∧ (x s).2.log = s.log) : Succeeds t x fun _ => True := by
  intro s hs
  refine ⟨(h s).1 ▸ hs, .of_eq (h s).2, fun hclean hfaulty => hclean ?_, trivial⟩
  rwa [Faulty, (h s).2] at hfaulty

end Succeeds

namespace Vouches

theorem mono (hx : Vouches t x P) (h : ∀ a, P a → P' a) : Vouches t x P' :=
  fun s hs => (hx s hs).mono fun a _ ⟨hsees, hlogs, hp⟩ => ⟨hsees, hlogs, h a ∘ hp⟩

/-- There is no fault in the first step if there is none in the end. -/
theorem bind (hx : Vouches t x P) (hf : ∀ a, Vouches t (f a) fun b => P a → R b) : Vouches t (x >>= f) R :=
  fun s hs => (hx s hs).bind fun a s' ⟨hsees, hlogs, hp⟩ =>
    (hf a s' hsees).mono fun _ _ ⟨hsees', hlogs', hr⟩ =>
      ⟨hsees', hlogs.trans hlogs', fun hclean => hr hclean (hp (mt hlogs'.faulty hclean))⟩

theorem of_succeeds (hx : Succeeds t x P) : Vouches t x P :=
  fun s hs => (hx s hs).mono fun _ _ ⟨hsees, hlogs, _, hp⟩ => ⟨hsees, hlogs, fun _ => hp⟩

theorem pure {a : α} (h : P a) : Vouches t (Pure.pure a) P := of_succeeds (.pure h)

/-- Nothing needs to be known of the first step. -/
theorem next (hx : Succeeds t x P) (hf : ∀ a, Vouches t (f a) R) : Vouches t (x >>= f) R :=
  (of_succeeds hx).bind fun a => (hf a).mono fun _ hr _ => hr

theorem get_bind {f : Compiler → CompilerM β} (h : ∀ s : Compiler, t.Sees s.table → Vouches t (f s) R) :
    Vouches t (MonadState.get >>= f) R :=
  fun s hs => h s hs s hs

theorem fault (m : Message) {P : Unit → Prop} : Vouches t (fault m) P := by
  intro s hs
  have hemits : Emits (fun _ => True) (Compiler.fault m) := .fault m
  exact ⟨hs, (hemits s).logs, fun hclean => absurd (faulty_fault m s) hclean⟩

/-- Behind a fault anything is vouched for. -/
theorem fault_bind (m : Message) {f : Unit → CompilerM β} (hf : Succeeds t (f ⟨⟩) fun _ => True) :
    Vouches t (Compiler.fault m >>= f) R :=
  (fault m (P := fun _ => False)).bind fun _ => (of_succeeds hf).mono fun _ _ h => h.elim

end Vouches

/-! ### Single steps -/

namespace Succeeds

theorem shift : Succeeds t shift fun _ => True := by
  intro s hs
  have hemits : Emits (fun _ => True) Compiler.shift := .shift
  refine ⟨hs, (hemits s).logs, fun hclean ⟨m, hm⟩ => hclean ⟨m, ?_⟩, trivial⟩
  change Event.fault m ∈ (s.log.push .shift).toList at hm
  simpa using hm

theorem refer (rs : List Reference) : Succeeds t (refer rs) fun _ => True := quiet fun _ => ⟨rfl, rfl⟩

theorem inspect (types : List Ty) : Succeeds t (inspect types) fun _ => True := refer _

theorem write (i : Item) : Succeeds t (write i) fun _ => True := quiet fun _ => ⟨rfl, rfl⟩

theorem emit (op : Opcode) (operands : List Int) : Succeeds t (emit op operands) fun _ => True := write _

theorem emitAll (operations : List Operation) : Succeeds t (emitAll operations) fun _ => True := by
  induction operations with
  | nil => exact pure trivial
  | cons o os ih => exact (emit o.1 o.2).next fun _ => ih

theorem newLabel : Succeeds t newLabel fun _ => True := quiet fun _ => ⟨rfl, rfl⟩

theorem place (l : Label) : Succeeds t (place l) fun _ => True := quiet fun _ => ⟨rfl, rfl⟩

theorem jumpWith (op : Opcode) (l : Label) : Succeeds t (jumpWith op l) fun _ => True :=
  quiet fun _ => ⟨rfl, rfl⟩

theorem shiftUnless (first : Bool) : Succeeds t (shiftUnless first) fun _ => True := by
  unfold Compiler.shiftUnless
  split
  · exact pure trivial
  · exact shift

theorem symbol (id : SymbolId) : Succeeds t (symbol id) (· = t.symbol id) :=
  (refer _).next fun _ => get_bind fun _ hs => pure (hs.symbol id)

theorem symbols (ids : Array SymbolId) : Succeeds t (symbols ids) (· = ids.map t.symbol) :=
  (refer _).next fun _ => get_bind fun _ hs => pure (congrArg (ids.map ·) (funext hs.symbol))

theorem fields (type : Ty) : Succeeds t (fields type) fun _ => True :=
  (refer _).next fun _ => get_bind fun _ _ => pure trivial

theorem newArray (element : Ty) : Succeeds t (newArray element) fun type => ∃ id, type = .array id element :=
  fun _ hs => ⟨hs.addType _, .of_eq rfl, id, _, rfl⟩

theorem faultIf {c : Bool} (h : c = false) (m : Message) : Succeeds t (faultIf c m) fun _ => True := by
  rw [h]
  exact pure trivial

theorem expectName (name : String) : Succeeds t (expectName (some name)) (· = name) :=
  shift.next fun _ => pure rfl

theorem expectNumber (substitute k : Int) : Succeeds t (expectNumber substitute (some k)) (· = k) :=
  shift.next fun _ => pure rfl

theorem expect (kind : Kind) : Succeeds t (expect kind true) fun _ => True := shift

theorem find {name : String} {id : SymbolId} (h : t.lookup? name = some id) :
    Succeeds t (find name) (· = id) := by
  refine get_bind fun _ _ => (refer _).next fun _ => get_bind fun s hs => ?_
  rw [hs.lookup?, h]
  exact pure rfl

theorem findField {type : Ty} {name : String} {id : SymbolId} (h : t.field? type name = some id) :
    Succeeds t (findField type name) (· = id) := by
  refine (fields type).next fun _ => (refer _).next fun _ => get_bind fun s hs => ?_
  rw [hs.field?, h]
  exact pure rfl

theorem load {y : Operand} (h : y.loadCode?.isSome = true) : Succeeds t (load y) (· = y.onStack) := by
  obtain ⟨operations, hoperations⟩ := Option.isSome_iff_exists.1 h
  unfold Compiler.load
  rw [hoperations]
  exact (emitAll operations).next fun _ => pure rfl

theorem operandOf {id : SymbolId} {y : Operand} (h : Operand.ofSymbol? (t.symbol id) id = some y) :
    Succeeds t (operandOf id) (· = y) := by
  refine (symbol id).bind fun _ hc => ?_
  rw [hc, h]
  exact pure rfl

theorem findType {name : String} {type : Ty} (h : t.type? (some name) = some type) :
    Succeeds t (findType name) (· = type) := by
  obtain ⟨id, hid, hkind, htype⟩ := SymbolTable.exists_of_type? h
  refine (find hid).bind fun _ hid => hid ▸ (symbol _).bind fun _ hc => ?_
  rw [hc]
  exact (faultIf (by simp [hkind]) _).next fun _ => pure htype

theorem formalTypes {y : Operand} {id : SymbolId} (h : y.location = .method id) :
    Succeeds t (formalTypes y) (· = t.formals id) := by
  unfold MicroJava.formalTypes
  rw [h]
  refine (symbol id).bind fun _ hc => hc ▸ (symbols _).bind fun _ hcs => pure ?_
  rw [hcs, SymbolTable.formals]

theorem passArgument {y : Operand} {formal : Ty} (h : y.type.assignable formal = true) (formals : List Ty) :
    Succeeds t (passArgument y (formal :: formals)) (· = formals) :=
  (inspect _).next fun _ => (faultIf (by simp [h]) _).next fun _ => pure rfl

theorem passArguments {y : Operand} {id : SymbolId} (h : y.location = .method id)
    {pass : List Ty → CompilerM (List Ty)} (hpass : Succeeds t (pass (t.formals id)) (· = [])) :
    Succeeds t (passArguments y pass true) fun _ => True :=
  .next .shift fun _ => (formalTypes h).bind fun _ hformals => hformals ▸ hpass.bind fun left hleft =>
    (faultIf (by simp [hleft]) _).next fun _ => shift

theorem call (y : Operand) : Succeeds t (call y) fun _ => True := by
  unfold Compiler.call
  split
  · split
    · exact pure trivial
    · split
      · exact emit _ _
      · exact (symbol _).next fun _ => write _
  · exact pure trivial

theorem requireInts {y z : Operand} (hy : y.type = .int) (hz : z.type = .int) :
    Succeeds t (requireInts y z) fun _ => True :=
  faultIf (by simp [hy, hz]) _

/-- A negated value is a value of the same type. -/
theorem negate {y : Operand} (h : y.loadCode?.isSome = true) :
    Succeeds t (negate y) fun z => z.loadCode?.isSome = true ∧ z.type = y.type := by
  unfold MicroJava.negate
  split
  · exact pure ⟨rfl, rfl⟩
  · refine (load h).bind fun _ hz => (emit _ _).next fun _ => pure ?_
    rw [hz]
    exact ⟨rfl, rfl⟩

theorem compileRelation (r : Relation) : Succeeds t (Tree.compileRelation (some r)) (· = r) :=
  shift.next fun _ => pure rfl

end Succeeds

namespace Vouches

theorem faultIf (c : Bool) (m : Message) : Vouches t (faultIf c m) fun _ => c = false := by
  cases c with
  | false => exact .pure rfl
  | true => exact fault m

theorem expect (kind : Kind) (found : Bool) : Vouches t (expect kind found) fun _ => found = true := by
  cases found with
  | false => exact fault _
  | true => exact (of_succeeds .shift).mono fun _ _ => rfl

theorem expectName (name : Option String) : Vouches t (expectName name) fun n => name = some n := by
  cases name with
  | none => exact fault_bind _ (.pure trivial)
  | some n => exact .next .shift fun _ => .pure rfl

theorem expectNumber (substitute : Int) (k : Option Int) :
    Vouches t (expectNumber substitute k) fun n => k = some n := by
  cases k with
  | none => exact fault_bind _ (.pure trivial)
  | some n => exact .next .shift fun _ => .pure rfl

theorem find (name : String) : Vouches t (find name) fun id => t.lookup? name = some id := by
  refine get_bind fun _ _ => next (.refer _) fun _ => get_bind fun s hs => ?_
  rw [← hs.lookup?]
  split
  · next id hid => exact .pure hid
  · exact fault_bind _ (.pure trivial)

theorem findField (type : Ty) (name : String) :
    Vouches t (findField type name) fun id => t.field? type name = some id := by
  refine next (.fields type) fun _ => next (.refer _) fun _ => get_bind fun s hs => ?_
  rw [← hs.field?]
  split
  · next id hid => exact .pure hid
  · exact fault_bind _ (.pure trivial)

theorem findType (name : String) : Vouches t (findType name) fun type => t.type? (some name) = some type := by
  refine (find name).bind fun id => (of_succeeds (.symbol id)).bind fun c => (faultIf _ _).bind fun _ =>
    .pure fun hkind hc hid => ?_
  rw [hc] at hkind ⊢
  simpa [SymbolTable.type?, hid] using hkind

theorem operandOf (id : SymbolId) :
    Vouches t (operandOf id) fun y => Operand.ofSymbol? (t.symbol id) id = some y := by
  refine (of_succeeds (.symbol id)).bind fun c => ?_
  split
  · next y hy => exact .pure fun hc => hc ▸ hy
  · exact fault_bind _ (.pure trivial)

theorem load (y : Operand) : Vouches t (load y) fun z => y.loadCode?.isSome = true ∧ z = y.onStack := by
  cases h : y.loadCode? with
  | some operations => exact (of_succeeds (.load (by rw [h]; rfl))).mono fun _ hz => ⟨rfl, hz⟩
  | none =>
      unfold Compiler.load
      rw [h]
      exact fault_bind _ (.pure trivial)

theorem formalTypes (y : Operand) :
    Vouches t (formalTypes y) fun types => ∃ id, y.location = .method id ∧ types = t.formals id := by
  cases h : y.location with
  | method id => exact (of_succeeds (.formalTypes h)).mono fun _ htypes => ⟨id, rfl, htypes⟩
  | _ =>
      unfold MicroJava.formalTypes
      rw [h]
      exact fault_bind _ (.pure trivial)

theorem passArgument (y : Operand) (formals : List Ty) : Vouches t (passArgument y formals) fun left =>
    ∃ formal, formals = formal :: left ∧ y.type.assignable formal = true := by
  cases formals with
  | nil => exact fault_bind _ (.pure trivial)
  | cons formal formals =>
      exact next (.inspect _) fun _ => (faultIf _ _).bind fun _ =>
        .pure fun h => ⟨formal, rfl, by simpa using h⟩

theorem passArguments (y : Operand) {pass : List Ty → CompilerM (List Ty)} (closed : Bool)
    {Fit : List Ty → Prop} (hpass : ∀ formals, Vouches t (pass formals) fun left => left = [] → Fit formals) :
    Vouches t (passArguments y pass closed) fun _ =>
      ∃ id, y.location = .method id ∧ Fit (t.formals id) ∧ closed = true := by
  refine next .shift fun _ => (formalTypes y).bind fun formals => (hpass formals).bind fun left =>
    (faultIf _ _).bind fun _ => (expect _ closed).mono ?_
  rintro - hclosed hnone hfit ⟨id, hid, rfl⟩
  exact ⟨id, hid, hfit (by simpa using hnone), hclosed⟩

theorem negate (y : Operand) : Vouches t (negate y) fun z =>
    y.loadCode?.isSome = true ∧ z.loadCode?.isSome = true ∧ z.type = y.type := by
  unfold MicroJava.negate
  split
  · next n hn => exact .pure ⟨by rw [Operand.loadCode?, hn]; rfl, rfl, rfl⟩
  · refine (load y).bind fun z => next (.emit _ _) fun _ => .pure ?_
    rintro ⟨hy, rfl⟩
    exact ⟨hy, rfl, rfl⟩

theorem compileRelation (r : Option Relation) : Vouches t (Tree.compileRelation r) fun r' => r = some r' := by
  cases r with
  | none => exact fault_bind _ (.pure trivial)
  | some r => exact next .shift fun _ => .pure rfl

end Vouches

end Compiler

end MicroJava
