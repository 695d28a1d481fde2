import MicroJava.Proofs.StatementCode

/-!
# The code of an expression as a function of the symbol table

What is written for an expression depends on its tree and on the symbol table only, and is the code
of its parts one after the other (`Expr.code`). A designator stands for an operand, its place
(`Designator.place`); its own code pushes the reference and the index that the place needs.

Where a name stands for nothing, or a type has no such field, the code is that of the constant zero.
Trees that are compiled without a fault are `Valid`: all their names stand for something that can be
used there (`Expr.makes_compile`).
-/

namespace MicroJava

/-- The operand that a name stands for. -/
def SymbolTable.operand? (t : SymbolTable) (name : Option String) : Option Operand := do
  let id ← t.lookup? (← name)
  Operand.ofSymbol? (t.symbol id) id

/-- The type that a name stands for. -/
def SymbolTable.type? (t : SymbolTable) (name : Option String) : Option Ty := do
  let s := t.symbol (← t.lookup? (← name))
  if s.kind = .type then some s.type else none

/-- The operand that a field stands for, if the reference to its object is on the stack. -/
def SymbolTable.fieldOperand? (t : SymbolTable) (type : Ty) (name : Option String) :
    Option Operand := do
  let f := t.symbol (← t.field? type (← name))
  some ⟨.field f.address, f.type⟩

namespace Operand

/-- The operand that stands in for one that is not there. -/
def missing : Operand := constant 0 .void

/-- The code that pushes the value of an operand. -/
def loading (x : Operand) : List Item := (x.loadCode?.getD []).map Operation.item

/-- The code that pops a value into the place of an operand. -/
def storing (x : Operand) : List Item := (x.storeCode?.getD []).map Operation.item

/-- The code that pushes once more what the place of an operand needs. -/
def duplicating (x : Operand) : List Item := x.duplicateCode.map Operation.item

/-- The code of a call whose arguments are on the stack. -/
def calling (t : SymbolTable) (x : Operand) : List Item :=
  match x.location with
  | .method id =>
    if id = SymbolTable.ordId ∨ id = SymbolTable.chrId then []
    else if id = SymbolTable.lenId then [.instruction .arrayLength []]
    else [.call (t.symbol id).address]
  | _ => []

end Operand

namespace Tree

/-- The operand that a designator stands for. -/
def Designator.place (t : SymbolTable) : Designator → Operand
  | .name n => (t.operand? n).getD .missing
  | .field d n => (t.fieldOperand? (d.place t).type n).getD .missing
  | .element d _ _ => ⟨.element, (d.place t).type.element⟩

mutual

/-- The operand that a sum is before it is pushed. The numbers of array types do not matter. -/
def Expr.operand (t : SymbolTable) : Expr → Operand
  | .term x => x.operand t
  | .neg x =>
    match (x.operand t).location with
    | .constant n => .constant (wrapWord (-n)) .int
    | _ => .stack .int
  | .add .. => .stack .int

/-- The operand that a product is before it is pushed. -/
def Term.operand (t : SymbolTable) : Term → Operand
  | .factor f => f.operand t
  | .mul .. | .power .. => .stack .int

/-- The operand that a factor is before it is pushed. -/
def Factor.operand (t : SymbolTable) : Factor → Operand
  | .designator d => d.place t
  | .call d _ _ => (d.place t).onStack
  | .number n => .constant n .int
  | .char n => .constant n .char
  | .newObject name => .stack ((t.type? name).getD .void)
  | .newArray name .. => .stack (.array 0 ((t.type? name).getD .void))
  | .group e _ => e.operand t
  | .missing => .stack .void

end

mutual

/-- The code that pushes the value of a sum. -/
def Expr.code (t : SymbolTable) : Expr → List Item
  | .term x => x.code t
  | .neg x =>
    match (x.operand t).location with
    | .constant n => (Operand.constant (wrapWord (-n)) .int).loading
    | _ => x.code t ++ [.instruction .neg []]
  | .add e op x => e.code t ++ x.code t ++ [.instruction op.opcode []]

/-- The code that pushes the value of a product. -/
def Term.code (t : SymbolTable) : Term → List Item
  | .factor f => f.code t
  | .mul x op f => x.code t ++ f.code t ++ [.instruction op.opcode []]
  | .power x k => x.code t ++ (powerCode (k.getD 1)).map Operation.item

/-- The code that pushes the value of a factor. -/
def Factor.code (t : SymbolTable) : Factor → List Item
  | .designator d => d.code t ++ (d.place t).loading
  | .call d arguments _ => d.code t ++ codeOfArguments t arguments ++ (d.place t).calling t
  | .number n => (Operand.constant n .int).loading
  | .char n => (Operand.constant n .char).loading
  | .newObject name =>
    [.instruction .new [(((t.type? name).map t.fields).getD #[]).size]]
  | .newArray name size _ =>
    size.code t ++ [.instruction .newArray [if t.type? name = some .char then 0 else 1]]
  | .group e _ => e.code t
  | .missing => []

/-- The code that pushes what the place of a designator needs. -/
def Designator.code (t : SymbolTable) : Designator → List Item
  | .name _ => []
  | .field d _ => d.code t ++ (d.place t).loading
  | .element d index _ => d.code t ++ (d.place t).loading ++ index.code t

/-- The code that pushes the values of the arguments of a call. -/
def codeOfArguments (t : SymbolTable) : List Expr → List Item
  | [] => []
  | e :: es => e.code t ++ codeOfArguments t es

end

mutual

/-- All names of a sum stand for something that can be used there. -/
def Expr.Valid (t : SymbolTable) : Expr → Prop
  | .term x | .neg x => x.Valid t
  | .add e _ x => e.Valid t ∧ x.Valid t

/-- All names of a product stand for something that can be used there. -/
def Term.Valid (t : SymbolTable) : Term → Prop
  | .factor f => f.Valid t
  | .mul x _ f => x.Valid t ∧ f.Valid t
  | .power x k => x.Valid t ∧ ∃ n, k = some n ∧ n ≤ maxExponent

/-- All names of a factor stand for something that can be used there. -/
def Factor.Valid (t : SymbolTable) : Factor → Prop
  | .designator d => d.Valid t ∧ (d.place t).loadCode?.isSome
  | .call d arguments _ =>
    d.Valid t ∧ ValidArguments t arguments ∧ (d.place t).type ≠ .void ∧
      ∃ id, (d.place t).location = .method id ∧
        arguments.length = (t.symbol id).parameters.size
  | .number _ | .char _ => True
  | .newObject name => ∃ type, t.type? name = some type ∧ type.shape = .object
  | .newArray name size _ => (t.type? name).isSome ∧ size.Valid t
  | .group e _ => e.Valid t
  | .missing => False

/-- All names of a designator stand for something that can be used there. -/
def Designator.Valid (t : SymbolTable) : Designator → Prop
  | .name n => (t.operand? n).isSome
  | .field d n =>
    d.Valid t ∧ (d.place t).loadCode?.isSome ∧ (t.fieldOperand? (d.place t).type n).isSome
  | .element d index _ => d.Valid t ∧ (d.place t).loadCode?.isSome ∧ index.Valid t

/-- All names of the arguments of a call stand for something that can be used there. -/
def ValidArguments (t : SymbolTable) : List Expr → Prop
  | [] => True
  | e :: es => e.Valid t ∧ ValidArguments t es

end

end Tree

/-! ### What stays true when types are made -/

namespace SymbolTable.Extends

variable {t t' : SymbolTable}

theorem lookup? (h : t.Extends t') (name : String) : t'.lookup? name = t.lookup? name := by
  simp only [SymbolTable.lookup?, h.current, h.outer]

/-- The fields of a type that was there are those that it had. -/
theorem fields (h : t.Extends t') {type : Ty} (htype : type.In t) :
    t'.fields type = t.fields type := by
  obtain ⟨more, hmore⟩ := h.types
  have hlt : type.id < t.types.toList.length := htype.id_lt
  have hentry : t'.types[type.id]? = t.types[type.id]? := by
    rw [← Array.getElem?_toList, ← Array.getElem?_toList, ← hmore, List.getElem?_append_left hlt]
  rw [SymbolTable.fields, hentry]
  rfl

theorem field? (h : t.Extends t') {type : Ty} (htype : type.In t) (name : String) :
    t'.field? type name = t.field? type name := by
  simp only [SymbolTable.field?, h.fields htype, h.symbol]

end SymbolTable.Extends

theorem Operand.type_of_ofSymbol? {s : Symbol} {id : SymbolId} {x : Operand}
    (h : Operand.ofSymbol? s id = some x) : x.type = s.type := by
  unfold Operand.ofSymbol? at h
  split at h <;> cases h <;> rfl

theorem SymbolTable.exists_of_operand? {t : SymbolTable} {name : Option String} {x : Operand}
    (h : t.operand? name = some x) : ∃ n id, name = some n ∧ t.lookup? n = some id ∧
      Operand.ofSymbol? (t.symbol id) id = some x := by
  obtain ⟨n, hn, id, hid, hx⟩ : ∃ n, name = some n ∧ ∃ id, t.lookup? n = some id ∧
      Operand.ofSymbol? (t.symbol id) id = some x := by
    simpa [operand?, Option.bind_eq_some_iff] using h
  exact ⟨n, id, hn, hid, hx⟩

theorem SymbolTable.exists_of_fieldOperand? {t : SymbolTable} {type : Ty} {name : Option String}
    {x : Operand} (h : t.fieldOperand? type name = some x) : ∃ n id, name = some n ∧
      t.field? type n = some id ∧ x = ⟨.field (t.symbol id).address, (t.symbol id).type⟩ := by
  obtain ⟨n, hn, id, hid, hx⟩ : ∃ n, name = some n ∧ ∃ id, t.field? type n = some id ∧
      (⟨.field (t.symbol id).address, (t.symbol id).type⟩ : Operand) = x := by
    simpa [fieldOperand?, Option.bind_eq_some_iff] using h
  exact ⟨n, id, hn, hid, hx.symm⟩

theorem SymbolTable.type?_in {t : SymbolTable} (ht : t.Closed) {name : Option String} {type : Ty}
    (h : t.type? name = some type) : type.In t := by
  obtain ⟨n, -, id, -, -, rfl⟩ : ∃ n, name = some n ∧ ∃ id, t.lookup? n = some id ∧
      (t.symbol id).kind = .type ∧ (t.symbol id).type = type := by
    simpa [type?, Option.bind_eq_some_iff] using h
  exact (ht.symbol_in id).type

namespace Makes

open Compiler

variable {α β : Type} {t : SymbolTable} {x : CompilerM α} {f : α → CompilerM β}
  {P : α → List Item → Prop} {R : β → List Item → Prop}

/-- What is known of the first items may be used for all of them. -/
theorem next (hx : Makes t x fun a _ is => P a is)
    (hf : ∀ a, Makes t (f a) fun b _ is => ∀ js, P a js → R b (js ++ is)) :
    Makes t (x >>= f) fun b _ is => R b is := by
  refine (hx.bind hf).mono ?_
  rintro b pc _ ⟨a, js, ks, rfl, hp, hr⟩
  exact hr js hp

/-- Something is known of a step that writes nothing. -/
theorem check {P : α → Prop} (hx : Makes t x fun a _ is => is = [] ∧ P a)
    (hf : ∀ a, Makes t (f a) fun b _ is => P a → R b is) :
    Makes t (x >>= f) fun b _ is => R b is :=
  hx.next fun a => (hf a).mono fun b _ is hr js ⟨hjs, hp⟩ => by
    rw [hjs]
    exact hr hp

theorem get_bind {f : Compiler → CompilerM β} {R : β → Nat → List Item → Prop}
    (h : ∀ s : Compiler, t.Extends s.table → Makes t (f s) R) :
    Makes t (MonadState.get >>= f) R :=
  fun s hs => h s hs s hs

theorem result {a : α} {P : α → Prop} (h : P a) :
    Makes t (Pure.pure a) fun a _ is => is = [] ∧ P a :=
  pure fun _ => ⟨rfl, h⟩

theorem faultIf (c : Bool) (m : Message) :
    Makes t (faultIf c m) fun _ _ is => is = [] ∧ c = false := by
  cases c with
  | false => exact pure fun _ => ⟨rfl, rfl⟩
  | true => exact fault m

theorem expectName (name : Option String) :
    Makes t (expectName name) fun n _ is => is = [] ∧ name = some n := by
  cases name with
  | none => exact of_faulty ((Emits.fault _).bind fun _ => .pure) fun s => faulty_fault _ s
  | some n => exact silent_bind .shift fun _ => pure fun _ => ⟨rfl, rfl⟩

theorem expectNumber (substitute : Int) (k : Option Int) :
    Makes t (expectNumber substitute k) fun n _ is => is = [] ∧ k = some n := by
  cases k with
  | none => exact of_faulty ((Emits.fault _).bind fun _ => .pure) fun s => faulty_fault _ s
  | some n => exact silent_bind .shift fun _ => pure fun _ => ⟨rfl, rfl⟩

theorem symbol (id : SymbolId) :
    Makes t (symbol id) fun c _ is => is = [] ∧ c = t.symbol id :=
  silent_bind (.refer _) fun _ => get_bind fun _ hs => pure fun _ => ⟨rfl, hs.symbol id⟩

theorem symbols (ids : Array SymbolId) :
    Makes t (symbols ids) fun cs _ is => is = [] ∧ cs.size = ids.size :=
  silent_bind (.refer _) fun _ => get_bind fun _ _ => pure fun _ => ⟨rfl, Array.size_map⟩

theorem find (name : String) :
    Makes t (find name) fun id _ is => is = [] ∧ t.lookup? name = some id := by
  refine get_bind fun _ _ => silent_bind (.refer _) fun _ => get_bind fun s hs => ?_
  rw [← hs.lookup?]
  split
  · next id hid => exact pure fun _ => ⟨rfl, hid⟩
  · exact of_faulty ((Emits.fault _).bind fun _ => .pure) fun s => faulty_fault _ s

theorem fields (type : Ty) : Makes t (fields type) fun ids _ is =>
    is = [] ∧ (type.In t → ids = t.fields type) :=
  silent_bind (.refer _) fun _ => get_bind fun _ hs => pure fun _ => ⟨rfl, hs.fields⟩

theorem findField (type : Ty) (name : String) : Makes t (findField type name) fun id _ is =>
    is = [] ∧ (type.In t → t.field? type name = some id) := by
  refine silent_bind (.fields type) fun _ => silent_bind (.refer _) fun _ => get_bind fun s hs => ?_
  split
  · next id hid => exact pure fun _ => ⟨rfl, fun htype => hs.field? htype name ▸ hid⟩
  · exact of_faulty ((Emits.fault _).bind fun _ => .pure) fun s => faulty_fault _ s

theorem findType (name : String) : Makes t (findType name) fun type _ is =>
    is = [] ∧ t.type? (some name) = some type :=
  (find name).check fun id => (symbol id).check fun c => (faultIf _ _).check fun _ =>
    pure fun _ hkind hc hid => by
      rw [hc] at hkind ⊢
      simpa [SymbolTable.type?, hid] using hkind

theorem newArray (element : Ty) : Makes t (newArray element) fun type _ is =>
    is = [] ∧ type.shape = .array :=
  of_emits (.newArray element) fun _ _ _ => ⟨[], .nil rfl rfl, rfl, rfl⟩

/-! ### Operands -/

theorem emitAll {os : List Operation} (h : ∀ o ∈ os, (Operation.item o).IsInner) :
    Makes t (emitAll os) fun _ _ is => is = os.map Operation.item := by
  refine of_emits (.emitAll h) fun s _ => (ensures_emitAll os).mono fun _ s' ⟨_, hw⟩ _ => ?_
  exact ⟨_, hw, rfl⟩

theorem emit {op : Opcode} {operands : List Int} (h : (Item.instruction op operands).IsInner) :
    Makes t (emit op operands) fun _ _ is => is = [.instruction op operands] :=
  write h

theorem operandOf (id : SymbolId) : Makes t (operandOf id) fun x _ is =>
    is = [] ∧ Operand.ofSymbol? (t.symbol id) id = some x := by
  refine (symbol id).check fun c => ?_
  split
  · next x hx => exact pure fun _ hc => ⟨rfl, hc ▸ hx⟩
  · exact of_faulty ((Emits.fault _).bind fun _ => .pure) fun s => faulty_fault _ s

theorem load (x : Operand) : Makes t (load x) fun y _ is =>
    is = x.loading ∧ x.loadCode?.isSome ∧ y = x.onStack := by
  unfold Compiler.load
  split
  · next os hos =>
      refine (emitAll fun o ho => (Operand.loadCode?_isStraight hos ho).isInner).next fun _ =>
        pure fun _ js hjs => ⟨?_, by rw [hos]; rfl, rfl⟩
      rw [List.append_nil, Operand.loading, hos, hjs]
      rfl
  · exact of_faulty ((Emits.fault _).bind fun _ => .pure) fun s => faulty_fault _ s

theorem store (x : Operand) : Makes t (store x) fun _ _ is =>
    is = x.storing ∧ x.storeCode?.isSome := by
  unfold Compiler.store
  split
  · next os hos =>
      refine (emitAll fun o ho => (Operand.storeCode?_isStraight hos ho).isInner).mono ?_
      rintro _ _ _ rfl
      rw [Operand.storing, hos]
      exact ⟨rfl, rfl⟩
  · exact fault _

theorem call (x : Operand) : Makes t (call x) fun _ _ is => is = x.calling t := by
  unfold Compiler.call Operand.calling
  cases x.location with
  | method id =>
      dsimp only
      split
      · exact pure fun _ => rfl
      · split
        · exact emit ⟨by decide, rfl, rfl⟩
        · exact (symbol id).check fun c => (write (i := .call c.address) trivial).mono fun _ _ _ his hc =>
            hc ▸ his
  | _ => exact pure fun _ => rfl

theorem formalTypes (x : Operand) : Makes t (formalTypes x) fun types _ is =>
    is = [] ∧ ∃ id, x.location = .method id ∧ types.length = (t.symbol id).parameters.size := by
  unfold MicroJava.formalTypes
  split
  · next id hid =>
      refine (symbol id).check fun c => (symbols _).check fun cs => pure fun _ hsize hc => ⟨rfl, id, hid, ?_⟩
      rw [Array.length_toList, Array.size_map, hsize, hc]
  · exact of_faulty ((Emits.fault _).bind fun _ => .pure) fun s => faulty_fault _ s

theorem passArgument (x : Operand) (formals : List Ty) :
    Makes t (passArgument x formals) fun left _ is => is = [] ∧ formals.length = left.length + 1 := by
  cases formals with
  | nil => exact of_faulty ((Emits.fault _).bind fun _ => .pure) fun s => faulty_fault _ s
  | cons formal formals =>
      exact silent_bind (.inspect _) fun _ => silent_bind (.faultIf _ _) fun _ =>
        pure fun _ => ⟨rfl, rfl⟩

/-- As many arguments are passed as there are parameters. -/
theorem passArguments (x : Operand) {pass : List Ty → CompilerM (List Ty)} (closed : Bool) {n : Nat}
    {P : List Item → Prop}
    (h : ∀ formals, Makes t (pass formals) fun left _ is => P is ∧ formals.length = left.length + n) :
    Makes t (passArguments x pass closed) fun _ _ is =>
      P is ∧ ∃ id, x.location = .method id ∧ n = (t.symbol id).parameters.size := by
  refine silent_bind .shift fun _ => (formalTypes x).check fun formals => (h formals).next fun left =>
    (faultIf _ _).check fun _ => (silent (.expect _ _)).mono ?_
  rintro _ _ _ rfl hnone js ⟨hp, hlength⟩ ⟨id, hid, hsize⟩
  rw [List.append_nil]
  have hleft : left = [] := by simpa using hnone
  rw [hleft, List.length_nil, Nat.zero_add] at hlength
  exact ⟨hp, id, hid, hlength ▸ hsize⟩

theorem negate (x : Operand) : Makes t (negate x) fun y _ is =>
    (∀ n, x.location = .constant n → is = [] ∧ y = ⟨.constant (wrapWord (-n)), x.type⟩) ∧
      ((∀ n, x.location ≠ .constant n) →
        is = x.loading ++ [.instruction .neg []] ∧ y = x.onStack ∧ x.loadCode?.isSome) := by
  unfold MicroJava.negate
  split
  · next n hn =>
      refine pure fun _ => ⟨fun k hk => ?_, fun hne => absurd hn (hne n)⟩
      obtain rfl : n = k := Location.constant.inj (hn.symm.trans hk)
      exact ⟨rfl, rfl⟩
  · next hne =>
      refine (load x).next fun y => (emit ⟨by decide, rfl, rfl⟩).next fun _ => pure ?_
      rintro _ ks rfl js ⟨rfl, hsome, rfl⟩
      exact ⟨fun n hn => absurd hn (hne n), fun _ => ⟨by simp, rfl, hsome⟩⟩

end Makes

/-! ### Expressions -/

/-- The items `is` were written for something that has the given code and is the operand `y` before
it is pushed, and the operand `x` is left. -/
structure Operand.Leaves (y : Operand) (code : List Item) (valid : Prop) (x : Operand)
    (is : List Item) : Prop where
  code : is ++ x.loading = code
  location : x.location = y.location
  shape : x.type.shape = y.type.shape
  constant : ∀ n, x.location = .constant n → is = []
  valid : x.loadCode?.isSome → valid

theorem Operand.Leaves.refl {x : Operand} {valid : Prop} (h : x.loadCode?.isSome → valid) :
    x.Leaves x.loading valid x [] :=
  ⟨rfl, rfl, rfl, fun _ _ => rfl, h⟩

/-- The value was pushed. -/
theorem Operand.Leaves.pushed {y x : Operand} {code : List Item} {valid : Prop}
    (hlocation : y.location = .stack) (hx : x.location = .stack) (hshape : x.type.shape = y.type.shape)
    (h : valid) : y.Leaves code valid x code where
  code := by rw [loading, loadCode?, hx]; exact List.append_nil _
  location := hx.trans hlocation.symm
  shape := hshape
  constant := fun n hn => by rw [hx] at hn; cases hn
  valid := fun _ => h

namespace Tree

open Compiler

variable {t : SymbolTable}

theorem AddOp.isInner_opcode (op : AddOp) : (Item.instruction op.opcode []).IsInner :=
  Item.IsStraight.isInner ⟨op.isStraight_opcode, by rw [op.immediates_opcode]; rfl⟩

theorem MulOp.isInner_opcode (op : MulOp) : (Item.instruction op.opcode []).IsInner :=
  Item.IsStraight.isInner ⟨op.isStraight_opcode, by rw [op.immediates_opcode]; rfl⟩

/-- Only a name can stand for a constant. -/
theorem Designator.code_of_constant {n : Int} : (d : Designator) → d.Valid t →
    (d.place t).location = .constant n → d.code t = []
  | .name _, _, _ => by rw [Designator.code]
  | .field d m, hd, hn => by
      rw [Designator.Valid] at hd
      obtain ⟨x, hx⟩ := Option.isSome_iff_exists.1 hd.2.2
      obtain ⟨_, _, -, -, rfl⟩ := SymbolTable.exists_of_fieldOperand? hx
      rw [Designator.place, hx] at hn
      cases hn
  | .element _ _ _, _, hn => by
      rw [Designator.place] at hn
      cases hn

/-- The types of designators are in the table. -/
theorem Designator.type_place_in (ht : t.Closed) (d : Designator) : (d.place t).type.In t := by
  cases d with
  | name n =>
      rw [Designator.place]
      cases hx : t.operand? n with
      | none => exact ht.void_in
      | some x =>
          obtain ⟨_, id, -, -, hid⟩ := SymbolTable.exists_of_operand? hx
          rw [Option.getD_some, Operand.type_of_ofSymbol? hid]
          exact (ht.symbol_in id).type
  | field d n =>
      rw [Designator.place]
      cases hx : t.fieldOperand? (d.place t).type n with
      | none => exact ht.void_in
      | some x =>
          obtain ⟨_, id, -, -, rfl⟩ := SymbolTable.exists_of_fieldOperand? hx
          exact (ht.symbol_in id).type
  | element d _ _ =>
      rw [Designator.place]
      exact (d.type_place_in ht).element ht.void_in

mutual

theorem Expr.makes_compile (ht : t.Closed) : (e : Expr) →
    Makes t e.compile fun x _ is => (e.operand t).Leaves (e.code t) (e.Valid t) x is
  | .term x => by
      rw [Expr.compile, Expr.operand, Expr.code, Expr.Valid]
      exact x.makes_compile ht
  | .neg x => by
      rw [Expr.compile, Expr.operand, Expr.code, Expr.Valid]
      refine .silent_bind .shift fun _ => (x.makes_compile ht).next fun y =>
        (Makes.faultIf _ _).check fun _ => (Makes.negate y).mono ?_
      rintro z _ js ⟨hconstant, hother⟩ hint is h
      have hint : y.type = .int := by simpa using hint
      by_cases hy : ∃ n, y.location = .constant n
      · obtain ⟨n, hn⟩ := hy
        obtain ⟨rfl, rfl⟩ := hconstant n hn
        rw [← h.location, hn, h.constant n hn, hint]
        exact .refl fun _ => h.valid (by rw [Operand.loadCode?, hn]; rfl)
      · obtain ⟨rfl, rfl, hsome⟩ := hother fun n hn => hy ⟨n, hn⟩
        rw [← h.location, ← h.code, ← List.append_assoc]
        split
        · next n hn => exact absurd ⟨n, hn⟩ hy
        · exact .pushed rfl rfl (by rw [Operand.onStack, hint]; rfl) (h.valid hsome)
  | .add e op x => by
      rw [Expr.compile, Expr.operand, Expr.code, Expr.Valid]
      refine (e.makes_compile ht).next fun a => .silent_bind .shift fun _ => (Makes.load a).next fun a' =>
        (x.makes_compile ht).next fun b => (Makes.load b).next fun b' => (Makes.faultIf _ _).check
        fun _ => (Makes.emit (op.isInner_opcode)).next fun _ => .pure ?_
      rintro _ _ rfl hints _ ⟨rfl, hb', rfl⟩ is₂ hb _ ⟨rfl, ha', rfl⟩ is₁ ha
      have hint : a.type = .int := by
        by_contra hne
        simp [Operand.onStack, hne] at hints
      have hcode : is₁ ++ (a.loading ++ (is₂ ++ (b.loading ++ ([.instruction op.opcode []] ++ [])))) =
          e.code t ++ x.code t ++ [.instruction op.opcode []] := by
        rw [← ha.code, ← hb.code]
        simp
      rw [hcode]
      exact .pushed rfl rfl (by rw [Operand.onStack, hint]; rfl) ⟨ha.valid ha', hb.valid hb'⟩

theorem Term.makes_compile (ht : t.Closed) : (x : Term) →
    Makes t x.compile fun y _ is => (x.operand t).Leaves (x.code t) (x.Valid t) y is
  | .factor f => by
      rw [Term.compile, Term.operand, Term.code, Term.Valid]
      exact f.makes_compile ht
  | .mul x op f => by
      rw [Term.compile, Term.operand, Term.code, Term.Valid]
      refine (x.makes_compile ht).next fun a => .silent_bind .shift fun _ => (Makes.load a).next fun a' =>
        (f.makes_compile ht).next fun b => (Makes.load b).next fun b' => (Makes.faultIf _ _).check
        fun _ => (Makes.emit (op.isInner_opcode)).next fun _ => .pure ?_
      rintro _ _ rfl hints _ ⟨rfl, hb', rfl⟩ is₂ hb _ ⟨rfl, ha', rfl⟩ is₁ ha
      have hint : a.type = .int := by
        by_contra hne
        simp [Operand.onStack, hne] at hints
      have hcode : is₁ ++ (a.loading ++ (is₂ ++ (b.loading ++ ([.instruction op.opcode []] ++ [])))) =
          x.code t ++ f.code t ++ [.instruction op.opcode []] := by
        rw [← ha.code, ← hb.code]
        simp
      rw [hcode]
      exact .pushed rfl rfl (by rw [Operand.onStack, hint]; rfl) ⟨ha.valid ha', hb.valid hb'⟩
  | .power x k => by
      rw [Term.compile, Term.operand, Term.code, Term.Valid]
      refine (x.makes_compile ht).next fun a => .silent_bind .shift fun _ =>
        (Makes.expectNumber 1 k).check fun n => (Makes.faultIf _ _).check fun _ =>
        (Makes.faultIf _ _).check fun _ => (Makes.load a).next fun a' =>
        (Makes.emitAll fun o ho => (powerCode_isStraight ho).isInner).next fun _ => .pure ?_
      rintro _ _ rfl _ ⟨rfl, ha', rfl⟩ hsmall hint rfl is ha
      have hsmall : ¬ maxExponent < n := by simpa using hsmall
      have hint : a.type = .int := by simpa using hint
      rw [if_neg hsmall, List.append_nil, ← List.append_assoc, ha.code]
      exact .pushed rfl rfl (by rw [Operand.onStack, hint]; rfl)
        ⟨ha.valid ha', n, rfl, Int.not_lt.1 hsmall⟩

theorem Factor.makes_compile (ht : t.Closed) : (f : Factor) →
    Makes t f.compile fun y _ is => (f.operand t).Leaves (f.code t) (f.Valid t) y is
  | .designator d => by
      rw [Factor.compile, Factor.operand, Factor.code, Factor.Valid]
      refine (d.makes_compile ht).mono ?_
      rintro _ _ _ ⟨rfl, rfl, hvalid⟩
      exact ⟨rfl, rfl, rfl, fun n hn => d.code_of_constant hvalid hn, fun h => ⟨hvalid, h⟩⟩
  | .call d arguments closed => by
      rw [Factor.compile, Factor.operand, Factor.code, Factor.Valid]
      refine (d.makes_compile ht).next fun x => (Makes.passArguments x closed
        (makes_compileArguments ht true arguments)).next fun _ => (Makes.faultIf _ _).check fun _ =>
        (Makes.call x).next fun _ => .pure ?_
      rintro _ _ rfl hvalue _ ⟨⟨rfl, hes⟩, id, hid, hlength⟩ _ ⟨rfl, rfl, hvalid⟩
      have hvoid : (d.place t).type ≠ .void := by
        rw [hid] at hvalue
        simpa [Location.isMethod] using hvalue
      rw [List.append_nil, ← List.append_assoc]
      exact .pushed rfl rfl rfl ⟨hvalid, hes, hvoid, id, hid, hlength⟩
  | .number n => by
      rw [Factor.compile, Factor.operand, Factor.code, Factor.Valid]
      exact .silent_bind .shift fun _ => .pure fun _ => .refl fun _ => trivial
  | .char n => by
      rw [Factor.compile, Factor.operand, Factor.code, Factor.Valid]
      exact .silent_bind .shift fun _ => .pure fun _ => .refl fun _ => trivial
  | .newObject name => by
      rw [Factor.compile, Factor.operand, Factor.code, Factor.Valid]
      refine .silent_bind .shift fun _ => (Makes.expectName name).check fun n =>
        (Makes.findType n).check fun type => .silent_bind (.inspect _) fun _ =>
        (Makes.faultIf _ _).check fun _ => (Makes.fields type).check fun fs =>
        (Makes.emit ⟨by decide, rfl, rfl⟩).next fun _ => .pure ?_
      rintro _ _ rfl hfields hshape htype rfl
      rw [htype, hfields (SymbolTable.type?_in ht htype), List.append_nil]
      exact .pushed rfl rfl rfl ⟨type, rfl, by simpa using hshape⟩
  | .newArray name size closed => by
      rw [Factor.compile, Factor.operand, Factor.code, Factor.Valid]
      refine .silent_bind .shift fun _ => (Makes.expectName name).check fun n =>
        (Makes.findType n).check fun type => .silent_bind .shift fun _ =>
        (size.makes_compile ht).next fun x => .silent_bind (.faultIf _ _) fun _ =>
        (Makes.load x).next fun _ => (Makes.emit ⟨by decide, rfl, rfl⟩).next fun _ =>
        .silent_bind (.expect _ _) fun _ => (Makes.newArray type).check fun array => .pure ?_
      rintro _ harray _ rfl _ ⟨rfl, hx, -⟩ is h htype rfl
      have hcode : is ++ (x.loading ++ ([.instruction .newArray [if type = .char then 0 else 1]] ++ [])) =
          size.code t ++ [.instruction .newArray [if t.type? (some n) = some .char then 0 else 1]] := by
        rw [← h.code, htype]
        simp
      rw [hcode]
      exact .pushed rfl rfl harray ⟨by rw [htype]; rfl, h.valid hx⟩
  | .group e closed => by
      rw [Factor.compile, Factor.operand, Factor.code, Factor.Valid]
      refine .silent_bind .shift fun _ => (e.makes_compile ht).next fun x =>
        .silent_bind (.expect _ _) fun _ => .pure fun _ is h => ?_
      rwa [List.append_nil]
  | .missing => by
      rw [Factor.compile]
      exact .of_faulty ((Emits.fault _).bind fun _ => .pure) fun s => faulty_fault _ s

theorem Designator.makes_compile (ht : t.Closed) : (d : Designator) →
    Makes t d.compile fun x _ is => is = d.code t ∧ x = d.place t ∧ d.Valid t
  | .name n => by
      rw [Designator.compile, Designator.code, Designator.place, Designator.Valid]
      refine (Makes.expectName n).check fun name => (Makes.find name).check fun id =>
        (Makes.operandOf id).mono ?_
      rintro x _ _ ⟨rfl, hx⟩ hid rfl
      have hoperand : t.operand? (some name) = some x := by simp [SymbolTable.operand?, hid, hx]
      rw [hoperand]
      exact ⟨rfl, rfl, rfl⟩
  | .field d n => by
      rw [Designator.compile, Designator.code, Designator.place, Designator.Valid]
      refine (d.makes_compile ht).next fun x => .silent_bind (.inspect _) fun _ =>
        .silent_bind (.faultIf _ _) fun _ => .silent_bind .shift fun _ => (Makes.load x).next fun y =>
        (Makes.expectName n).check fun name => (Makes.findField y.type name).check fun id =>
        (Makes.symbol id).check fun f => .pure ?_
      rintro _ rfl hid rfl _ ⟨rfl, hsome, rfl⟩ _ ⟨rfl, rfl, hvalid⟩
      have hfield : t.fieldOperand? (d.place t).type (some name) =
          some ⟨.field (t.symbol id).address, (t.symbol id).type⟩ := by
        have hid := hid (d.type_place_in ht)
        simp only [Operand.onStack] at hid
        simp [SymbolTable.fieldOperand?, hid]
      rw [hfield, List.append_nil]
      exact ⟨rfl, rfl, hvalid, hsome, rfl⟩
  | .element d index closed => by
      rw [Designator.compile, Designator.code, Designator.place, Designator.Valid]
      refine (d.makes_compile ht).next fun x => .silent_bind .shift fun _ => (Makes.load x).next fun y =>
        .silent_bind (.inspect _) fun _ => .silent_bind (.faultIf _ _) fun _ =>
        (index.makes_compile ht).next fun i => .silent_bind (.faultIf _ _) fun _ =>
        (Makes.load i).next fun _ => .silent_bind (.expect _ _) fun _ => .pure ?_
      rintro _ _ ⟨rfl, hi, -⟩ is h _ ⟨rfl, hsome, rfl⟩ _ ⟨rfl, rfl, hvalid⟩
      rw [← h.code, List.append_nil, List.append_assoc]
      exact ⟨rfl, rfl, hvalid, hsome, h.valid hi⟩

theorem makes_compileArguments (ht : t.Closed) (first : Bool) : (es : List Expr) →
    (formals : List Ty) → Makes t (compileArguments first es formals) fun left _ is =>
      (is = codeOfArguments t es ∧ ValidArguments t es) ∧ formals.length = left.length + es.length
  | [], formals => by
      rw [compileArguments, codeOfArguments, ValidArguments]
      exact .pure fun _ => ⟨⟨rfl, trivial⟩, rfl⟩
  | e :: es, formals => by
      rw [compileArguments, codeOfArguments, ValidArguments]
      refine .silent_bind (.shiftUnless _) fun _ => (e.makes_compile ht).next fun x =>
        (Makes.load x).next fun y => (Makes.passArgument y formals).check fun left =>
        (makes_compileArguments ht false es left).mono ?_
      rintro rest _ _ ⟨⟨rfl, hvalid⟩, hlength⟩ hformals _ ⟨rfl, hsome, -⟩ is h
      refine ⟨⟨?_, ⟨h.valid hsome, hvalid⟩⟩, ?_⟩
      · rw [← h.code, List.append_assoc]
      · rw [hformals, hlength, List.length_cons, Nat.add_assoc]

end

end Tree

/-! ### The code of an expression runs straight through -/

namespace Operand

theorem isStraight_loading (x : Operand) : ∀ i ∈ x.loading, i.IsStraight := by
  intro i hi
  obtain ⟨o, ho, rfl⟩ := List.mem_map.1 hi
  cases hx : x.loadCode? with
  | none => simp [hx] at ho
  | some os => exact loadCode?_isStraight hx (by simpa [hx] using ho)

theorem isStraight_storing (x : Operand) : ∀ i ∈ x.storing, i.IsStraight := by
  intro i hi
  obtain ⟨o, ho, rfl⟩ := List.mem_map.1 hi
  cases hx : x.storeCode? with
  | none => simp [hx] at ho
  | some os => exact storeCode?_isStraight hx (by simpa [hx] using ho)

theorem isStraight_duplicating (x : Operand) : ∀ i ∈ x.duplicating, i.IsStraight := by
  intro i hi
  obtain ⟨o, ho, rfl⟩ := List.mem_map.1 hi
  exact duplicateCode_isStraight ho

theorem isStraight_calling (t : SymbolTable) (x : Operand) : ∀ i ∈ x.calling t, i.IsStraight := by
  unfold calling
  split
  · split
    · simp
    · split
      · exact List.forall_mem_singleton.2 ⟨rfl, rfl⟩
      · exact List.forall_mem_singleton.2 trivial
  · simp

end Operand

namespace Tree

mutual

theorem Expr.isStraight_code (t : SymbolTable) : (e : Expr) → ∀ i ∈ e.code t, i.IsStraight
  | .term x => by
      rw [Expr.code]
      exact x.isStraight_code t
  | .neg x => by
      rw [Expr.code]
      split
      · exact Operand.isStraight_loading _
      · exact List.forall_mem_append.2 ⟨x.isStraight_code t, List.forall_mem_singleton.2 ⟨rfl, rfl⟩⟩
  | .add e op x => by
      rw [Expr.code]
      exact List.forall_mem_append.2 ⟨List.forall_mem_append.2 ⟨e.isStraight_code t, x.isStraight_code t⟩,
        List.forall_mem_singleton.2 ⟨op.isStraight_opcode, by rw [op.immediates_opcode]; rfl⟩⟩

theorem Term.isStraight_code (t : SymbolTable) : (x : Term) → ∀ i ∈ x.code t, i.IsStraight
  | .factor f => by
      rw [Term.code]
      exact f.isStraight_code t
  | .mul x op f => by
      rw [Term.code]
      exact List.forall_mem_append.2 ⟨List.forall_mem_append.2 ⟨x.isStraight_code t, f.isStraight_code t⟩,
        List.forall_mem_singleton.2 ⟨op.isStraight_opcode, by rw [op.immediates_opcode]; rfl⟩⟩
  | .power x k => by
      rw [Term.code]
      refine List.forall_mem_append.2 ⟨x.isStraight_code t, fun i hi => ?_⟩
      obtain ⟨o, ho, rfl⟩ := List.mem_map.1 hi
      exact powerCode_isStraight ho

theorem Factor.isStraight_code (t : SymbolTable) : (f : Factor) → ∀ i ∈ f.code t, i.IsStraight
  | .designator d => by
      rw [Factor.code]
      exact List.forall_mem_append.2 ⟨d.isStraight_code t, Operand.isStraight_loading _⟩
  | .call d arguments _ => by
      rw [Factor.code]
      exact List.forall_mem_append.2 ⟨List.forall_mem_append.2
        ⟨d.isStraight_code t, isStraight_codeOfArguments t arguments⟩, Operand.isStraight_calling t _⟩
  | .number n => by
      rw [Factor.code]
      exact Operand.isStraight_loading _
  | .char n => by
      rw [Factor.code]
      exact Operand.isStraight_loading _
  | .newObject name => by
      rw [Factor.code]
      exact List.forall_mem_singleton.2 ⟨rfl, rfl⟩
  | .newArray name size _ => by
      rw [Factor.code]
      exact List.forall_mem_append.2 ⟨size.isStraight_code t, List.forall_mem_singleton.2 ⟨rfl, rfl⟩⟩
  | .group e _ => by
      rw [Factor.code]
      exact e.isStraight_code t
  | .missing => by simp [Factor.code]

theorem Designator.isStraight_code (t : SymbolTable) : (d : Designator) →
    ∀ i ∈ d.code t, i.IsStraight
  | .name _ => by simp [Designator.code]
  | .field d _ => by
      rw [Designator.code]
      exact List.forall_mem_append.2 ⟨d.isStraight_code t, Operand.isStraight_loading _⟩
  | .element d index _ => by
      rw [Designator.code]
      exact List.forall_mem_append.2 ⟨List.forall_mem_append.2
        ⟨d.isStraight_code t, Operand.isStraight_loading _⟩, index.isStraight_code t⟩

theorem isStraight_codeOfArguments (t : SymbolTable) : (es : List Expr) →
    ∀ i ∈ codeOfArguments t es, i.IsStraight
  | [] => by simp [codeOfArguments]
  | e :: es => by
      rw [codeOfArguments]
      exact List.forall_mem_append.2 ⟨e.isStraight_code t, isStraight_codeOfArguments t es⟩

end

end Tree

end MicroJava
