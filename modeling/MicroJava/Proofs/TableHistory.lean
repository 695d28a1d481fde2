import MicroJava.Proofs.Allocation
import MicroJava.Proofs.Limits

/-!
# The tables that a parse can reach

A parse changes the symbol table by a few operations only (`SymbolTable.Change`): it opens and closes scopes,
declares names, completes symbols, makes types and gives a class its fields. A table is reached if it comes from
the predeclared one by such changes (`SymbolTable.Reached`), and a state is reached if its table is and reading
resumed only after a fault (`Compiler.Reached`). All states that a parse goes through are reached, those between
methods (`Tree.Program.reached_after`) as those in their bodies (`Compiler.InBody.reached`).

Two things hold of all reached tables, whatever was declared: the type of `null` has no fields, and the name of a
type stands for `int`, `char` or a class.
-/

namespace MicroJava

open Compiler MicroJava.Tree

namespace SymbolTable

/-- A single change of a symbol table. The name of a type that is declared is that of a class, and only the
types that are not predeclared are given fields. -/
inductive Change : SymbolTable → SymbolTable → Prop
  | openScope {t : SymbolTable} : Change t t.openScope
  | closeScope {t : SymbolTable} : Change t t.closeScope
  | declare {t : SymbolTable} {kind : SymbolKind} {name : String} {type : Ty}
      (h : kind = .type → ∃ c, type = .object c) : Change t (t.declare kind name type)
  | complete {t : SymbolTable} {id : SymbolId} {f : Symbol → Symbol}
      (h : ∀ c, (f c).kind = c.kind ∧ (f c).type = c.type) : Change t (t.modifySymbol id f)
  | addType {t : SymbolTable} {type : Ty} : Change t (t.addType type)
  | setFields {t : SymbolTable} {c : TypeId} {fields : Array SymbolId} (h : predeclared.types.size ≤ c) :
      Change t (t.setFields (.object c) fields)

/-- The table comes from the predeclared one. -/
def Reached (t : SymbolTable) : Prop :=
  Relation.ReflTransGen Change predeclared t

theorem Reached.change {t t' : SymbolTable} (h : t.Reached) (hchange : Change t t') : t'.Reached :=
  h.tail hchange

/-- What is known of the names of types and of the type of `null`. -/
structure Genuine (t : SymbolTable) : Prop where
  null : t.fields .null = #[]
  typeNames : ∀ id, (t.symbol id).kind = .type →
    (t.symbol id).type = .int ∨ (t.symbol id).type = .char ∨ ∃ c, (t.symbol id).type = .object c
  size : predeclared.types.size ≤ t.types.size

theorem genuine_predeclared : predeclared.Genuine where
  null := rfl
  typeNames := by
    have hsymbols : ∀ id < predeclared.symbols.size, (predeclared.symbol id).kind = .type →
        (predeclared.symbol id).type = .int ∨ (predeclared.symbol id).type = .char := by decide
    intro id hkind
    by_cases hid : id < predeclared.symbols.size
    · exact (hsymbols id hid hkind).imp_right .inl
    · have hnone : predeclared.symbol id = noSymbol := by
        rw [symbol, Array.getElem?_eq_none (Nat.not_lt.1 hid), Option.getD_none]
      rw [hnone] at hkind
      cases hkind
  size := le_rfl

/-- A type that is made has no fields. -/
theorem fields_addType (t : SymbolTable) (added type : Ty) : (t.addType added).fields type = t.fields type := by
  rw [fields, fields, addType, Array.getElem?_push]
  split
  · next hid => rw [hid, Array.getElem?_eq_none le_rfl]; rfl
  · rfl

theorem kind_declare (t : SymbolTable) (kind : SymbolKind) (name : String) (type : Ty) :
    ((t.declare kind name type).symbol t.nextSymbol).kind = kind ∧
      ((t.declare kind name type).symbol t.nextSymbol).type = type := by
  rw [Closed.symbol_declare_self]
  split <;> exact ⟨rfl, rfl⟩

theorem Genuine.change {t t' : SymbolTable} (h : t.Genuine) (hchange : Change t t') : t'.Genuine := by
  cases hchange with
  | openScope => exact ⟨h.null, h.typeNames, h.size⟩
  | closeScope =>
      unfold closeScope
      split
      · exact h
      · exact ⟨h.null, h.typeNames, h.size⟩
  | @declare kind name type hclass =>
      refine ⟨h.null, fun id hkind => ?_, h.size⟩
      rcases Nat.lt_trichotomy id t.symbols.size with hid | rfl | hid
      · rw [Closed.symbol_declare _ _ _ hid] at hkind ⊢
        exact h.typeNames id hkind
      · obtain ⟨hk, htype⟩ := t.kind_declare kind name type
        rw [nextSymbol] at hk htype
        obtain ⟨c, hc⟩ := hclass (hk.symm.trans hkind)
        exact .inr (.inr ⟨c, htype.trans hc⟩)
      · rw [Slotted.symbol_declare_of_size_lt _ _ _ hid] at hkind
        cases hkind
  | @complete i f hf =>
      refine ⟨h.null, fun id hkind => ?_, h.size⟩
      have hsame : ((t.modifySymbol i f).symbol id).kind = (t.symbol id).kind ∧
          ((t.modifySymbol i f).symbol id).type = (t.symbol id).type := by
        simp only [symbol, modifySymbol, Array.getElem?_modify]
        split
        · cases t.symbols[id]? with
          | none => exact ⟨rfl, rfl⟩
          | some c => exact hf c
        · exact ⟨rfl, rfl⟩
      rw [hsame.1] at hkind
      rw [hsame.2]
      exact h.typeNames id hkind
  | addType =>
      refine ⟨?_, h.typeNames, h.size.trans (by simp [addType])⟩
      rw [fields_addType, h.null]
  | @setFields c ids hc =>
      refine ⟨?_, h.typeNames, h.size.trans (by simp [setFields])⟩
      have hid : Ty.null.id ≠ (Ty.object c).id :=
        Nat.ne_of_lt (Nat.lt_of_lt_of_le (by decide : 3 < predeclared.types.size) hc)
      rw [fields_setFields_of_ne hid, h.null]

theorem Reached.genuine {t : SymbolTable} (h : t.Reached) : t.Genuine := by
  induction h with
  | refl => exact genuine_predeclared
  | tail _ hchange ih => exact ih.change hchange

end SymbolTable

/-! ### Steps of a compilation -/

namespace Compiler

variable {α β : Type} {s s' : Compiler}

/-- The state is like those that a parse reaches: it comes to its table by single changes, and its log is
orderly. -/
structure Reached (s : Compiler) : Prop where
  table : s.table.Reached
  orderly : Event.Orderly s.log.toList

namespace Reached

theorem initial : Compiler.initial.Reached := ⟨.refl, Event.orderly_nil⟩

/-- The table changes, and nothing is logged. -/
theorem change (hs : s.Reached) (h : SymbolTable.Change s.table s'.table) (hlog : s'.log = s.log) : s'.Reached :=
  ⟨hs.table.change h, hlog ▸ hs.orderly⟩

end Reached

theorem Steps.reached {allowed : Item → Prop} (h : Steps allowed s s') (hs : s.Reached) : s'.Reached := by
  refine ⟨?_, h.logs.orderly hs.orderly⟩
  induction h with
  | refl => exact hs.table
  | tail _ hstep ih =>
      cases hstep with
      | addType => exact ih.change .addType
      | _ => exact ih

/-- The step leads from reached states to reached states. -/
def KeepsReached (x : CompilerM α) : Prop :=
  ∀ s : Compiler, s.Reached → Ensures x s fun _ s' => s'.Reached

namespace KeepsReached

variable {x : CompilerM α} {f : α → CompilerM β}

theorem of_emits {allowed : Item → Prop} (hx : Emits allowed x) : KeepsReached x :=
  fun s hs => (hx s).reached hs

theorem silent (hx : Emits (fun _ => False) x) : KeepsReached x := of_emits hx

theorem pure {a : α} : KeepsReached (Pure.pure a) := silent .pure

theorem bind (hx : KeepsReached x) (hf : ∀ a, KeepsReached (f a)) : KeepsReached (x >>= f) :=
  fun s hs => hf _ _ (hx s hs)

theorem forM {γ : Type} {g : γ → CompilerM PUnit} {l : List γ} (h : ∀ c, KeepsReached (g c)) :
    KeepsReached (l.forM g) := by
  induction l with
  | nil => exact pure
  | cons c l ih => exact (h c).bind fun _ => ih

/-- The step changes neither the table nor the log. -/
theorem quiet (h : ∀ s, (x s).2.table = s.table ∧ (x s).2.log = s.log) : KeepsReached x :=
  fun s hs => ⟨(h s).1 ▸ hs.table, (h s).2 ▸ hs.orderly⟩

theorem openScope : KeepsReached openScope := fun _ hs => hs.change .openScope rfl

theorem closeScope : KeepsReached closeScope := fun _ hs => hs.change .closeScope rfl

theorem variableCount : KeepsReached variableCount := .quiet fun _ => ⟨rfl, rfl⟩

theorem currentLocals : KeepsReached currentLocals := .quiet fun _ => ⟨rfl, rfl⟩

theorem complete (id : SymbolId) {f : Symbol → Symbol} (hf : ∀ c, (f c).kind = c.kind ∧ (f c).type = c.type) :
    KeepsReached (modifySymbol id f) :=
  fun _ hs => hs.change (.complete hf) rfl

theorem declare {kind : SymbolKind} {type : Ty} (name : String) (h : kind = .type → ∃ c, type = .object c) :
    KeepsReached (declare kind name type) := by
  have hnew : KeepsReached fun s => (s.table.nextSymbol, { s with table := s.table.declare kind name type }) :=
    fun _ hs => hs.change (.declare h) rfl
  have hscope : KeepsReached scope := .quiet fun _ => ⟨rfl, rfl⟩
  exact hscope.bind fun _ => (silent (.faultIf _ _)).bind fun _ => hnew

end KeepsReached

end Compiler

namespace Tree

/-! ### Declarations -/

theorem keepsReached_declareVariable (type : Ty) (name : Option String) :
    KeepsReached (declareVariable type name) :=
  (KeepsReached.silent (.expectName name)).bind fun name =>
    (KeepsReached.declare name (by simp)).bind fun _ => .pure

theorem VariableDecl.keepsReached_compile (d : VariableDecl) : KeepsReached d.compile := by
  have hother (type : Ty) (name : Option String) : KeepsReached (do
      shift
      declareVariable type name) :=
    (KeepsReached.silent .shift).bind fun _ => keepsReached_declareVariable type name
  exact (KeepsReached.silent (TypeName.emits_compile d.type)).bind fun type =>
    (keepsReached_declareVariable type d.first).bind fun _ =>
      (KeepsReached.forM (hother type)).bind fun _ => .silent (.expect _ d.ended)

theorem ConstantValue.keepsReached_compile (type : Ty) (id : SymbolId) (value : ConstantValue) :
    KeepsReached (value.compile type id) := by
  have htake (shape : TyShape) (v : Int) : KeepsReached (compile.take type id shape v) :=
    (KeepsReached.silent (.inspect _)).bind fun _ => (KeepsReached.silent (.faultIf _ _)).bind fun _ =>
      (KeepsReached.silent .shift).bind fun _ => .complete id (by simp)
  cases value with
  | number v => exact htake .int v
  | char v => exact htake .char v
  | missing => exact .silent (.fault _)

theorem ConstantDecl.keepsReached_compile (d : ConstantDecl) : KeepsReached d.compile :=
  (KeepsReached.silent .shift).bind fun _ =>
    (KeepsReached.silent (TypeName.emits_compile d.type)).bind fun type =>
    (KeepsReached.silent (.expectName d.name)).bind fun name =>
    (KeepsReached.declare name (by simp)).bind fun id =>
    (KeepsReached.silent (.expect _ d.assigned)).bind fun _ =>
    (d.value.keepsReached_compile type id).bind fun _ => .silent (.expect _ d.ended)

theorem keepsReached_compileFields (fields : List VariableDecl) : KeepsReached (compileFields fields) :=
  KeepsReached.openScope.bind fun _ =>
    (KeepsReached.forM VariableDecl.keepsReached_compile).bind fun _ => KeepsReached.variableCount.bind fun _ =>
    (KeepsReached.silent (.faultIf _ _)).bind fun _ => KeepsReached.currentLocals.bind fun _ =>
    KeepsReached.closeScope.bind fun _ => .pure

/-- A class is a new type, so it is none of the predeclared ones. -/
theorem ClassDecl.keepsReached_compile (d : ClassDecl) : KeepsReached d.compile := by
  have hrest (name : String) {c : TypeId} (hc : SymbolTable.predeclared.types.size ≤ c) : KeepsReached (do
      let _ ← declare .type name (.object c)
      expect .leftBrace d.opened
      setFields (.object c) (← compileFields d.fields)
      expect .rightBrace d.closed) :=
    (KeepsReached.declare name fun _ => ⟨c, rfl⟩).bind fun _ =>
      (KeepsReached.silent (.expect _ d.opened)).bind fun _ =>
      (keepsReached_compileFields d.fields).bind fun ids =>
      KeepsReached.bind (fun _ hs => hs.change (.setFields hc) rfl) fun _ => .silent (.expect _ d.closed)
  refine (KeepsReached.silent .shift).bind fun _ =>
    (KeepsReached.silent (.expectName d.name)).bind fun name s hs => ?_
  exact hrest name hs.table.genuine.size _ (hs.change .addType rfl)

theorem Declaration.keepsReached_compile (d : Declaration) : KeepsReached d.compile := by
  cases d with
  | constant d => exact d.keepsReached_compile
  | globals d => exact d.keepsReached_compile
  | object d => exact d.keepsReached_compile
  | skipped more => exact .silent (.skip _ more)

/-! ### Methods and programs -/

theorem keepsReached_compileParameters (first : Bool) (ps : List Parameter) :
    KeepsReached (compileParameters first ps) := by
  induction ps generalizing first with
  | nil => exact .pure
  | cons p ps ih =>
      exact (KeepsReached.silent (.shiftUnless first)).bind fun _ =>
        (KeepsReached.silent (TypeName.emits_compile p.type)).bind fun type =>
        (keepsReached_declareVariable type p.name).bind fun _ => ih false

theorem keepsReached_noteMain (name : String) (result : Ty) (entry parameterCount : Nat) :
    KeepsReached (noteMain name result entry parameterCount) := by
  have hentry : KeepsReached (modifyCode ({ · with entry := some entry })) := .quiet fun _ => ⟨rfl, rfl⟩
  unfold noteMain
  split
  · exact hentry.bind fun _ => (KeepsReached.silent (.faultIf _ _)).bind fun _ => .silent (.faultIf _ _)
  · exact .pure

theorem MethodDecl.keepsReached_compileSignature (d : MethodDecl) : KeepsReached d.compileSignature := by
  have hpc : KeepsReached pc := .quiet fun _ => ⟨rfl, rfl⟩
  have hdeclare : KeepsReached d.declare :=
    (KeepsReached.silent (emits_compileResult d.type)).bind fun result =>
      (KeepsReached.silent (.expectName d.name)).bind fun name =>
      (KeepsReached.declare name (by simp)).bind fun id => hpc.bind fun _ =>
      (KeepsReached.complete id (by simp)).bind fun _ => .pure
  exact hdeclare.bind fun m => (KeepsReached.silent (.expect _ d.opened)).bind fun _ =>
    KeepsReached.openScope.bind fun _ => (keepsReached_compileParameters true d.parameters).bind fun _ =>
    KeepsReached.variableCount.bind fun count =>
    (KeepsReached.complete m.id (by simp)).bind fun _ =>
    (KeepsReached.silent (.expect _ d.closed)).bind fun _ =>
    (keepsReached_noteMain m.name m.result m.entry count).bind fun _ => .pure

theorem MethodDecl.keepsReached_compileHead (d : MethodDecl) : KeepsReached d.compileHead := by
  have hnote (info : MethodInfo) : KeepsReached (modify fun s =>
      { s with debug := { s.debug with methods := s.debug.methods.push info } }) := .quiet fun _ => ⟨rfl, rfl⟩
  have henter (operands : List Int) : Emits (fun _ => True) (emit .enter operands) := .write trivial
  exact d.keepsReached_compileSignature.bind fun m =>
    (KeepsReached.forM VariableDecl.keepsReached_compile).bind fun _ =>
    KeepsReached.variableCount.bind fun count => (KeepsReached.silent (.faultIf _ _)).bind fun _ =>
    (KeepsReached.of_emits (henter _)).bind fun _ => KeepsReached.currentLocals.bind fun _ =>
    (KeepsReached.complete m.id (by simp)).bind fun _ => (hnote _).bind fun _ =>
    (KeepsReached.silent (.expect _ d.bodyOpened)).bind fun _ => .pure

theorem MethodDecl.keepsReached_compile (d : MethodDecl) : KeepsReached d.compile := by
  have hfar : KeepsReached takeFarCount := .quiet fun _ => ⟨rfl, rfl⟩
  have hend (result : Ty) : Emits (fun _ => True) (emitAll (endCode result)) := .emitAll fun _ _ => trivial
  have htail (result : Ty) : KeepsReached (d.compileTail result) :=
    (KeepsReached.silent (.expect _ d.bodyClosed)).bind fun _ => KeepsReached.closeScope.bind fun _ =>
      hfar.bind fun _ => (KeepsReached.silent (.faultIf _ _)).bind fun _ => .of_emits (hend result)
  exact d.keepsReached_compileHead.bind fun m =>
    (KeepsReached.of_emits (emits_compileStatements none m.result d.body)).bind fun _ => htail m.result

theorem Member.keepsReached_compile (m : Member) : KeepsReached m.compile := by
  cases m with
  | method d => exact d.keepsReached_compile
  | skipped more => exact .silent (.skip _ more)

namespace Program

theorem keepsReached_compileHead (p : Program) : KeepsReached p.compileHead := by
  have hname (name : String) : KeepsReached (modify fun s =>
      { s with debug := { s.debug with program := name } }) := .quiet fun _ => ⟨rfl, rfl⟩
  have hglobals : KeepsReached noteGlobals :=
    KeepsReached.variableCount.bind fun _ => (KeepsReached.silent (.faultIf _ _)).bind fun _ =>
      KeepsReached.currentLocals.bind fun ids => (KeepsReached.silent (.symbols ids)).bind fun _ =>
      .quiet fun _ => ⟨rfl, rfl⟩
  exact (KeepsReached.silent .shift).bind fun _ => (KeepsReached.silent (.expect _ p.announced)).bind fun _ =>
    (KeepsReached.silent (.expectName p.name)).bind fun name =>
    (KeepsReached.declare name (by simp)).bind fun _ => (hname name).bind fun _ =>
    KeepsReached.openScope.bind fun _ => (KeepsReached.forM Declaration.keepsReached_compile).bind fun _ =>
    hglobals.bind fun _ => (KeepsReached.silent (.expect _ p.opened)).bind fun _ => .pure

/-- The state before each method of a program is reached. -/
theorem reached_after (p : Program) (n : Nat) : (p.after n).Reached :=
  (p.keepsReached_compileHead.bind fun _ => KeepsReached.forM Member.keepsReached_compile) _ .initial

/-- The state at the end of a program is reached. -/
theorem reached_compile (p : Program) : (p.compile .initial).2.Reached := by
  have htail (id : SymbolId) : KeepsReached (p.compileTail id) :=
    (KeepsReached.silent (.expect _ p.closed)).bind fun _ => KeepsReached.currentLocals.bind fun _ =>
      (KeepsReached.complete id (by simp)).bind fun _ => KeepsReached.closeScope.bind fun _ =>
      (KeepsReached.silent .get).bind fun _ => (KeepsReached.silent (.faultIf _ _)).bind fun _ =>
      .silent (.expect _ p.complete)
  exact (p.keepsReached_compileHead.bind fun id =>
    (KeepsReached.forM Member.keepsReached_compile).bind fun _ => htail id) _ .initial

end Program

end Tree

/-- The states in the body of a method are reached. -/
theorem Compiler.InBody.reached {s : Compiler} (h : s.InBody) : s.Reached := by
  obtain ⟨p, n, d, hsteps⟩ := h
  exact hsteps.reached (d.keepsReached_compileHead _ (p.reached_after n))

end MicroJava
