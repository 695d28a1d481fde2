import MicroJava.Proofs.Assembly
import MicroJava.Proofs.Closed

/-!
# Nothing is referred to that is not there

`Sound s` is the invariant of a compilation: the symbol table is closed, everything that was
referred to was there, and the code is assembled from the items that were written. Compiling an
expression in a sound state ends in a sound state, and the types and methods that the operand
mentions are there (`Tree.Expr.safe_compile`).

The steps are `Safe`: besides keeping the state sound, they extend the symbol table, so what is
known of earlier operands stays true, and write calls to declared methods only (`Follows`).
-/

namespace MicroJava

namespace SymbolTable

/-- The address of a method that was declared, and is not predeclared. -/
def HasEntry (t : SymbolTable) (a : Int) : Prop :=
  ∃ id, (t.symbol id).kind = .method ∧ (id ≠ ordId ∧ id ≠ chrId) ∧ id ≠ lenId ∧
    (t.symbol id).address = a

theorem Extends.below {t t' : SymbolTable} (h : t.Extends t') : t.Below t' :=
  ⟨by rw [h.symbols], by simpa using h.types.length_le, by rw [h.scopeCount]⟩

theorem Extends.hasEntry {t t' : SymbolTable} (h : t.Extends t') {a : Int} (ha : t.HasEntry a) :
    t'.HasEntry a := by
  simpa only [HasEntry, h.symbol] using ha

end SymbolTable

/-- What an operand mentions is in a table: its type, and the method that it stands for. -/
structure Operand.In (x : Operand) (t : SymbolTable) : Prop where
  type : x.type.In t
  method : ∀ id, x.location = .method id →
    id < t.symbols.size ∧ (t.symbol id).kind = .method ∧ (t.symbol id).type = x.type

namespace Operand.In

variable {x : Operand} {t t' : SymbolTable}

theorem mono (h : x.In t) (he : t.Extends t') : x.In t' := by
  refine ⟨h.type.mono he.below, fun id hid => ?_⟩
  rw [he.symbol]
  exact ⟨(h.method id hid).1.trans_le he.below.symbols, (h.method id hid).2⟩

/-- An operand that is no method. -/
theorem of_type (h : x.type.In t) (hloc : x.location.isMethod = false) : x.In t := by
  refine ⟨h, fun id hid => ?_⟩
  rw [hid] at hloc
  cases hloc

theorem onStack (h : x.In t) : x.onStack.In t := of_type h.type rfl

end Operand.In

namespace Compiler

variable {α β : Type} {s s' s'' : Compiler}

/-- The invariant of a compilation. -/
structure Sound (s : Compiler) : Prop where
  table : s.table.Closed
  stray : s.stray = none
  assembles : s.code.Assembles s.items.toList

/-- A state after the symbol table was extended and calls of declared methods were written. -/
structure Follows (s s' : Compiler) : Prop where
  table : s.table.Extends s'.table
  calls : ∀ a, Item.call a ∈ s'.items.toList → Item.call a ∈ s.items.toList ∨ s'.table.HasEntry a

theorem Follows.refl (s : Compiler) : s.Follows s := ⟨.refl _, fun _ ha => .inl ha⟩

theorem Follows.trans (h : s.Follows s') (h' : s'.Follows s'') : s.Follows s'' := by
  refine ⟨h.table.trans h'.table, fun a ha => ?_⟩
  rcases h'.calls a ha with ha | ha
  · exact (h.calls a ha).imp_right h'.table.hasEntry
  · exact .inr ha

/-- Nothing is remembered of references to what is there. -/
theorem refer_of_knows {rs : List Reference} (h : ∀ r ∈ rs, s.knows r = true) : refer rs s = ((), s) := by
  have hfind : (rs.find? fun r => !s.knows r) = none := by
    simpa using h
  change ((), { s with stray := s.stray.or (rs.find? fun r => !s.knows r) }) = ((), s)
  rw [hfind, Option.or_none]

/-- A step that changes the log only. -/
def OnlyLogs (x : CompilerM α) : Prop :=
  ∀ s, ∃ log, (x s).2 = { s with log }

namespace OnlyLogs

theorem pure {a : α} : OnlyLogs (Pure.pure a) := fun s => ⟨s.log, rfl⟩

theorem record (e : Event) : OnlyLogs (record e) := fun s => ⟨s.log.push e, rfl⟩

theorem shifts (n : Nat) : OnlyLogs (shifts n) := fun s => ⟨s.log ++ Array.replicate n .shift, rfl⟩

theorem bind {x : CompilerM α} {f : α → CompilerM β} (hx : OnlyLogs x) (hf : ∀ a, OnlyLogs (f a)) :
    OnlyLogs (x >>= f) := by
  intro s
  rcases hx s with ⟨log, hlog⟩
  rcases hf (x s).1 (x s).2 with ⟨log', hlog'⟩
  refine ⟨log', hlog'.trans ?_⟩
  rw [hlog]

theorem shift : OnlyLogs shift := record _

theorem fault (m : Message) : OnlyLogs (fault m) := record _

theorem faultIf (c : Bool) (m : Message) : OnlyLogs (faultIf c m) := by
  unfold Compiler.faultIf
  split
  · exact record _
  · exact pure

theorem shiftUnless (first : Bool) : OnlyLogs (shiftUnless first) := by
  unfold Compiler.shiftUnless
  split
  · exact pure
  · exact record _

theorem expect (kind : Kind) (found : Bool) : OnlyLogs (expect kind found) := by
  unfold Compiler.expect
  split <;> exact record _

theorem expectName (name : Option String) : OnlyLogs (expectName name) := by
  cases name <;> exact (record _).bind fun _ => pure

theorem expectNumber (substitute : Int) (n : Option Int) :
    OnlyLogs (expectNumber substitute n) := by
  cases n <;> exact (record _).bind fun _ => pure

theorem skip (m : Message) (more : Nat) : OnlyLogs (skip m more) :=
  (record _).bind fun _ => (shifts _).bind fun _ => record _

end OnlyLogs

/-- The step keeps the state sound and extends the symbol table, and `A` holds of its value. -/
def Safe (x : CompilerM α) (s : Compiler) (A : SymbolTable → α → Prop) : Prop :=
  s.Sound → Ensures x s fun a s' => s'.Sound ∧ s.Follows s' ∧ A s'.table a

namespace Safe

variable {A : SymbolTable → α → Prop} {B : SymbolTable → β → Prop}

theorem pure {a : α} (h : A s.table a) : Safe (Pure.pure a) s A :=
  fun hs => ⟨hs, .refl _, h⟩

theorem bind {x : CompilerM α} {f : α → CompilerM β} (hx : Safe x s A)
    (hf : ∀ a s', s.table.Extends s'.table → A s'.table a → Safe (f a) s' B) :
    Safe (x >>= f) s B := by
  intro hs
  refine (hx hs).bind fun a s' ⟨hs', he, ha⟩ => ?_
  refine (hf a s' he.table ha hs').mono fun b s'' ⟨hs'', he', hb⟩ => ?_
  exact ⟨hs'', he.trans he', hb⟩

theorem mono {x : CompilerM α} {A' : SymbolTable → α → Prop} (hx : Safe x s A)
    (h : ∀ t a, A t a → A' t a) : Safe x s A' :=
  fun hs => (hx hs).mono fun _ _ ⟨hs', he, ha⟩ => ⟨hs', he, h _ _ ha⟩

/-- What is known in the state may be used. -/
theorem of_sound {x : CompilerM α} (h : s.Sound → Safe x s A) : Safe x s A :=
  fun hs => h hs hs

theorem get_bind {f : Compiler → CompilerM β} (h : Safe (f s) s B) :
    Safe (MonadState.get >>= f) s B :=
  h

theorem of_onlyLogs {x : CompilerM α} (h : OnlyLogs x) : Safe x s fun _ _ => True := by
  intro hs
  rcases h s with ⟨log, hlog⟩
  unfold Ensures
  rw [hlog]
  exact ⟨⟨hs.table, hs.stray, hs.assembles⟩, ⟨.refl _, fun _ ha => .inl ha⟩, trivial⟩

/-- After a step that only logs. -/
theorem log_bind {x : CompilerM α} {f : α → CompilerM β} (hx : OnlyLogs x)
    (hf : ∀ a s', s.table.Extends s'.table → Safe (f a) s' B) : Safe (x >>= f) s B :=
  (of_onlyLogs hx).bind fun a s' he _ => hf a s' he

/-- Things that are there are referred to. -/
theorem refer {rs : List Reference} (h : s.Sound → ∀ r ∈ rs, s.knows r = true) :
    Safe (refer rs) s fun _ _ => True := by
  intro hs
  unfold Ensures
  rw [refer_of_knows (h hs)]
  exact ⟨hs, .refl s, trivial⟩

/-- An item that the emitter accepts, and that is no call, is written. -/
theorem write {i : Item} (h : s.Sound → s.code.Accepts i) (hcall : ∀ a, i ≠ .call a) :
    Safe (write i) s fun _ _ => True := by
  intro hs
  refine Ensures.modify ⟨⟨hs.table, hs.stray, ?_⟩, ⟨.refl _, fun a ha => ?_⟩, trivial⟩
  · rw [Array.toList_push]
    exact hs.assembles.write (h hs)
  · rw [Array.toList_push, List.mem_append, List.mem_singleton] at ha
    rcases ha with ha | ha
    · exact .inl ha
    · exact absurd ha.symm (hcall a)

/-! ### The symbol table -/

theorem symbol {id : SymbolId} (h : s.Sound → id < s.table.symbols.size) :
    Safe (symbol id) s fun t c => c = t.symbol id ∧ c.In t := by
  refine (refer fun hs r hr => ?_).bind fun _ s' he _ => get_bind (of_sound fun hs => pure ?_)
  · rw [List.mem_singleton.1 hr]
    simpa [knows] using h hs
  · exact ⟨rfl, hs.table.symbol_in id⟩

theorem symbols {ids : Array SymbolId} (h : s.Sound → ∀ id ∈ ids, id < s.table.symbols.size) :
    Safe (symbols ids) s fun t cs => cs = ids.map t.symbol ∧ ∀ c ∈ cs, c.In t := by
  refine (refer fun hs r hr => ?_).bind fun _ s' he _ => get_bind (of_sound fun hs => pure ?_)
  · rcases List.mem_map.1 hr with ⟨id, hid, rfl⟩
    simpa [knows] using h hs id (by simpa using hid)
  · refine ⟨rfl, fun c hc => ?_⟩
    rcases Array.mem_map.1 hc with ⟨id, -, rfl⟩
    exact hs.table.symbol_in id

theorem inspect {types : List Ty} (h : ∀ type ∈ types, type.In s.table) :
    Safe (inspect types) s fun _ _ => True := by
  refine refer fun _ r hr => ?_
  rcases List.mem_flatMap.1 hr with ⟨type, htype, hr⟩
  rcases List.mem_map.1 hr with ⟨id, hid, rfl⟩
  simpa [knows] using h type htype id hid

theorem find (name : String) : Safe (find name) s fun t id => id < t.symbols.size := by
  refine get_bind ((refer fun hs r hr => ?_).bind fun _ s' he _ =>
    get_bind (of_sound fun hs => ?_))
  · rcases List.mem_map.1 hr with ⟨c, hc, rfl⟩
    simpa [knows] using (hs.table.scopes c hc).id
  · split
    · next id hid => exact pure (hs.table.lookup_lt hid)
    · exact log_bind (.fault _) fun _ s' he => of_sound fun hs => pure hs.table.symbols_pos

theorem fields {type : Ty} (h : type.In s.table) :
    Safe (fields type) s fun t fs => ∀ id ∈ fs, id < t.symbols.size := by
  refine (refer fun hs r hr => ?_).bind fun _ s' he _ => get_bind (of_sound fun hs => pure ?_)
  · rw [List.mem_singleton.1 hr]
    simpa [knows] using h.id_lt
  · exact hs.table.fields_lt type

theorem findField {type : Ty} (h : type.In s.table) (name : String) :
    Safe (findField type name) s fun t id => id < t.symbols.size := by
  refine (fields h).bind fun fs s' he hfs => (refer fun hs r hr => ?_).bind fun _ s' he _ =>
    get_bind (of_sound fun hs => ?_)
  · rcases List.mem_map.1 hr with ⟨id, hid, rfl⟩
    simpa [knows] using hfs id (by simpa using hid)
  · split
    · next id hid => exact pure (hs.table.field_lt hid)
    · exact log_bind (.fault _) fun _ s' he => of_sound fun hs => pure hs.table.symbols_pos

theorem newArray {element : Ty} (h : element.In s.table) :
    Safe (newArray element) s fun t type => type.In t := by
  intro hs
  have he : s.table.Extends (s.table.addType (s.table.nextArray element)) :=
    ⟨rfl, rfl, rfl, rfl, by simp [SymbolTable.addType]⟩
  exact ⟨⟨hs.table.addType _, hs.stray, hs.assembles⟩, ⟨he, fun _ ha => .inl ha⟩,
    SymbolTable.Closed.nextArray_in h⟩

/-! ### Operands -/

theorem emit {op : Opcode} {operands : List Int} (hop : op.isStraight = true)
    (hlen : operands.length = op.immediates.length) :
    Safe (emit op operands) s fun _ _ => True :=
  write (fun _ => .of_isStraight ⟨hop, hlen⟩) fun _ => Item.noConfusion

theorem emitAll {operations : List Operation}
    (h : ∀ o ∈ operations, (Item.instruction o.1 o.2).IsStraight) :
    Safe (emitAll operations) s fun _ _ => True := by
  induction operations generalizing s with
  | nil => exact pure trivial
  | cons o operations ih =>
      rcases h o List.mem_cons_self with ⟨hop, hlen⟩
      exact (emit hop hlen).bind fun _ _ _ _ => ih fun o' ho => h o' (List.mem_cons_of_mem o ho)

theorem operandOf {id : SymbolId} (h : id < s.table.symbols.size) :
    Safe (operandOf id) s fun t x => x.In t := by
  refine (symbol fun _ => h).bind fun c s' he ⟨hc, hin⟩ => ?_
  have hid : id < s'.table.symbols.size := h.trans_le he.below.symbols
  split
  · next x hx =>
      apply pure
      unfold Operand.ofSymbol? at hx
      split at hx
      · cases hx
        exact .of_type hin.type rfl
      · cases hx
        refine .of_type hin.type ?_
        dsimp only
        split <;> rfl
      · next hkind =>
          cases hx
          refine ⟨hin.type, fun id' hid' => ?_⟩
          obtain rfl : id = id' := Location.method.inj hid'
          exact ⟨hid, by rw [← hc, hkind], by rw [← hc]⟩
      · cases hx
      · cases hx
  · exact log_bind (.fault _) fun _ s' he => of_sound fun hs => pure (.of_type hs.table.void_in rfl)

theorem load {x : Operand} (h : x.In s.table) : Safe (load x) s fun t y => y.In t := by
  unfold Compiler.load
  split
  · next operations hx =>
      exact (emitAll fun _ => Operand.loadCode?_isStraight hx).bind fun _ s' he _ =>
        pure (h.mono he).onStack
  · exact log_bind (.fault _) fun _ s' he => pure (h.mono he).onStack

theorem store (x : Operand) : Safe (store x) s fun _ _ => True := by
  unfold Compiler.store
  split
  · next operations hx => exact emitAll fun _ => Operand.storeCode?_isStraight hx
  · exact of_onlyLogs (.fault _)

theorem assign (x : Operand) {y : Operand} (h : y.In s.table) :
    Safe (assign x y) s fun t y => y.In t :=
  (load h).bind fun _ _ _ hy => (store x).bind fun _ _ he _ => pure (hy.mono he)

theorem prepareUpdate {x : Operand} (h : x.In s.table) :
    Safe (prepareUpdate x) s fun _ _ => True :=
  (emitAll fun _ => Operand.duplicateCode_isStraight).bind fun _ _ he _ =>
    (load (h.mono he)).bind fun _ _ _ _ => pure trivial

theorem update (x : Operand) {y : Operand} (h : y.In s.table) {op : Opcode}
    (hop : op.isStraight = true) (hnone : op.immediates = []) :
    Safe (update x y op) s fun t y => y.In t :=
  (load h).bind fun _ _ _ hy => (emit hop (by simp [hnone])).bind fun _ _ he _ =>
    (store x).bind fun _ _ he' _ => pure ((hy.mono he).mono he')

theorem increment {x : Operand} (h : x.In s.table) (n : Int) :
    Safe (increment x n) s fun _ _ => True := by
  have general : Safe (do
      Compiler.prepareUpdate x
      let _ ← Compiler.update x (Operand.constant n .int) .add) s fun _ _ => True :=
    (prepareUpdate h).bind fun _ _ he _ => of_sound fun hs =>
      (update x (.of_type hs.table.int_in rfl) rfl rfl).bind fun _ _ _ _ =>
      pure trivial
  unfold Compiler.increment
  split
  · split
    · exact emit rfl rfl
    · exact general
  · exact general

/-- A method is called at the address that it was declared with. -/
theorem call {x : Operand} (h : x.In s.table) : Safe (call x) s fun _ _ => True := by
  unfold Compiler.call
  split
  · next id hid =>
      rcases h.method id hid with ⟨hlt, hkind, -⟩
      split
      · exact pure trivial
      · split
        · exact emit rfl rfl
        · next hconv hlen =>
            refine (symbol fun _ => hlt).bind fun c s' he ⟨hc, _⟩ hs => ?_
            refine Ensures.modify ⟨⟨hs.table, hs.stray, ?_⟩, ⟨.refl _, fun a ha => ?_⟩, trivial⟩
            · rw [Array.toList_push]
              exact hs.assembles.write (i := .call c.address) trivial
            · rw [Array.toList_push, List.mem_append, List.mem_singleton] at ha
              rcases ha with ha | ha
              · exact .inl ha
              · rw [← he.symbol] at hkind
                exact .inr ⟨id, hkind, not_or.1 hconv, hlen, by rw [Item.call.inj ha, hc]⟩
  · exact pure trivial

theorem formalTypes {x : Operand} (h : x.In s.table) :
    Safe (formalTypes x) s fun t types => ∀ type ∈ types, type.In t := by
  unfold MicroJava.formalTypes
  split
  · next id hid =>
      refine (symbol fun _ => (h.method id hid).1).bind fun c s' he ⟨_, hin⟩ => ?_
      refine (symbols fun _ => hin.parameters).bind fun cs s'' he' ⟨_, hcs⟩ => pure ?_
      intro type htype
      rcases List.mem_map.1 (Array.toList_map ▸ htype) with ⟨c', hc', rfl⟩
      exact (hcs c' (by simpa using hc')).type
  · exact log_bind (.fault _) fun _ _ _ => pure (by simp)

theorem findType (name : String) : Safe (findType name) s fun t type => type.In t :=
  (find name).bind fun _ _ _ hid => (symbol fun _ => hid).bind fun _ _ _ ⟨_, hin⟩ =>
    log_bind (.faultIf _ _) fun _ _ he => pure (hin.type.mono he.below)

theorem passArgument {x : Operand} {formals : List Ty} (hx : x.In s.table)
    (h : ∀ type ∈ formals, type.In s.table) :
    Safe (passArgument x formals) s fun t types => ∀ type ∈ types, type.In t := by
  cases formals with
  | nil => exact log_bind (.fault _) fun _ _ _ => pure (by simp)
  | cons formal formals =>
      refine (inspect ?_).bind fun _ _ he _ => log_bind (.faultIf _ _) fun _ _ he' => pure ?_
      · simpa using ⟨hx.type, h formal List.mem_cons_self⟩
      · intro type htype
        exact ((h type (List.mem_cons_of_mem _ htype)).mono he.below).mono he'.below

theorem passArguments {x : Operand} (hx : x.In s.table) {pass : List Ty → CompilerM (List Ty)}
    (closed : Bool)
    (h : ∀ s' formals, (∀ type ∈ formals, type.In s'.table) →
      Safe (pass formals) s' fun _ _ => True) :
    Safe (passArguments x pass closed) s fun _ _ => True :=
  log_bind .shift fun _ _ he => (formalTypes (hx.mono he)).bind fun _ _ _ hformals =>
    (h _ _ hformals).bind fun _ _ _ _ => log_bind (.faultIf _ _) fun _ _ _ =>
    of_onlyLogs (.expect _ _)

theorem negate {x : Operand} (h : x.In s.table) : Safe (negate x) s fun t y => y.In t := by
  unfold MicroJava.negate
  split
  · exact pure (.of_type h.type rfl)
  · exact (load h).bind fun _ _ _ hy => (emit rfl rfl).bind fun _ _ he _ => pure (hy.mono he)

end Safe

end Compiler

namespace Tree

open Compiler

mutual

/-- Compiling an expression refers to nothing that is not there. -/
theorem Expr.safe_compile (s : Compiler) :
    (e : Expr) → Safe e.compile s fun t x => x.In t
  | .term t => by
      rw [Expr.compile]
      exact t.safe_compile s
  | .neg t => by
      rw [Expr.compile]
      refine .log_bind .shift fun _ s' _ => (t.safe_compile s').bind fun x _ _ hx => ?_
      exact .log_bind (.faultIf _ _) fun _ _ he => .negate (hx.mono he)
  | .add e op t => by
      rw [Expr.compile]
      refine (e.safe_compile s).bind fun x _ _ hx => .log_bind .shift fun _ _ he => ?_
      refine (Safe.load (hx.mono he)).bind fun x s' _ hx => (t.safe_compile s').bind fun y _ he hy => ?_
      refine (Safe.load hy).bind fun y _ he' _ => .log_bind (.faultIf _ _) fun _ _ he'' => ?_
      refine (Safe.emit op.isStraight_opcode (by simp [op.immediates_opcode])).bind fun _ _ he₃ _ => ?_
      exact .pure ((((hx.mono he).mono he').mono he'').mono he₃)

theorem Term.safe_compile (s : Compiler) :
    (t : Term) → Safe t.compile s fun t x => x.In t
  | .factor f => by
      rw [Term.compile]
      exact f.safe_compile s
  | .mul t op f => by
      rw [Term.compile]
      refine (t.safe_compile s).bind fun x _ _ hx => .log_bind .shift fun _ _ he => ?_
      refine (Safe.load (hx.mono he)).bind fun x s' _ hx => (f.safe_compile s').bind fun y _ he hy => ?_
      refine (Safe.load hy).bind fun y _ he' _ => .log_bind (.faultIf _ _) fun _ _ he'' => ?_
      refine (Safe.emit op.isStraight_opcode (by simp [op.immediates_opcode])).bind fun _ _ he₃ _ => ?_
      exact .pure ((((hx.mono he).mono he').mono he'').mono he₃)
  | .power t exponent => by
      rw [Term.compile]
      refine (t.safe_compile s).bind fun x _ _ hx => .log_bind .shift fun _ _ he => ?_
      refine .log_bind (.expectNumber _ _) fun k _ he' => .log_bind (.faultIf _ _) fun _ _ he'' => ?_
      refine .log_bind (.faultIf _ _) fun _ _ he₃ => ?_
      refine (Safe.load ((((hx.mono he).mono he').mono he'').mono he₃)).bind fun x _ _ hx => ?_
      exact (Safe.emitAll fun _ => powerCode_isStraight).bind fun _ _ he _ => .pure (hx.mono he)

theorem Factor.safe_compile (s : Compiler) :
    (f : Factor) → Safe f.compile s fun t x => x.In t
  | .designator d => by
      rw [Factor.compile]
      exact d.safe_compile s
  | .call d arguments closed => by
      rw [Factor.compile]
      refine (d.safe_compile s).bind fun x _ _ hx => ?_
      refine (Safe.passArguments hx closed fun s' formals h =>
        (safe_compileArguments s' true arguments formals h).mono fun _ _ _ => trivial).bind
        fun _ _ he _ => .log_bind (.faultIf _ _) fun _ _ he' => ?_
      exact (Safe.call ((hx.mono he).mono he')).bind fun _ _ he'' _ =>
        .pure (((hx.mono he).mono he').mono he'').onStack
  | .number n => by
      rw [Factor.compile]
      exact .log_bind .shift fun _ _ _ => .of_sound fun hs =>
        .pure (.of_type hs.table.int_in rfl)
  | .char n => by
      rw [Factor.compile]
      exact .log_bind .shift fun _ _ _ => .of_sound fun hs =>
        .pure (.of_type hs.table.char_in rfl)
  | .newObject name => by
      rw [Factor.compile]
      refine .log_bind .shift fun _ _ _ => .log_bind (.expectName _) fun name _ _ => ?_
      refine (Safe.findType name).bind fun type _ _ htype =>
        (Safe.inspect (by simpa using htype)).bind fun _ _ he _ =>
        .log_bind (.faultIf _ _) fun _ _ he' => ?_
      have htype' := (htype.mono he.below).mono he'.below
      refine (Safe.fields htype').bind fun fs _ he'' _ => ?_
      exact (Safe.emit rfl rfl).bind fun _ _ he₃ _ =>
        .pure (.of_type ((htype'.mono he''.below).mono he₃.below) rfl)
  | .newArray name size closed => by
      rw [Factor.compile]
      refine .log_bind .shift fun _ _ _ => .log_bind (.expectName _) fun name _ _ => ?_
      refine (Safe.findType name).bind fun element _ _ helement => .log_bind .shift fun _ s' he => ?_
      refine (size.safe_compile s').bind fun n _ he' hn => .log_bind (.faultIf _ _) fun _ _ he'' => ?_
      refine (Safe.load (hn.mono he'')).bind fun _ _ he₃ _ =>
        (Safe.emit rfl rfl).bind fun _ _ he₄ _ => .log_bind (.expect _ _) fun _ _ he₅ => ?_
      have helement' := (((((helement.mono he.below).mono he'.below).mono he''.below).mono
        he₃.below).mono he₄.below).mono he₅.below
      exact (Safe.newArray helement').bind fun type _ _ htype => .pure (.of_type htype rfl)
  | .group e closed => by
      rw [Factor.compile]
      refine .log_bind .shift fun _ s' _ => (e.safe_compile s').bind fun x _ _ hx => ?_
      exact .log_bind (.expect _ _) fun _ _ he => .pure (hx.mono he)
  | .missing => by
      rw [Factor.compile]
      exact .log_bind (.fault _) fun _ _ _ => .of_sound fun hs =>
        .pure (.of_type hs.table.void_in rfl)

theorem Designator.safe_compile (s : Compiler) :
    (d : Designator) → Safe d.compile s fun t x => x.In t
  | .name n => by
      rw [Designator.compile]
      exact .log_bind (.expectName n) fun name _ _ => (Safe.find name).bind fun id _ _ hid =>
        .operandOf hid
  | .field d n => by
      rw [Designator.compile]
      refine (d.safe_compile s).bind fun x _ _ hx =>
        (Safe.inspect (by simpa using hx.type)).bind fun _ _ he _ =>
        .log_bind (.faultIf _ _) fun _ _ he' => .log_bind .shift fun _ _ he'' => ?_
      refine (Safe.load (((hx.mono he).mono he').mono he'')).bind fun x _ _ hx =>
        .log_bind (.expectName n) fun name _ he => ?_
      refine (Safe.findField (hx.mono he).type name).bind fun id _ _ hid => ?_
      exact (Safe.symbol fun _ => hid).bind fun f _ _ ⟨_, hin⟩ => .pure (.of_type hin.type rfl)
  | .element d index closed => by
      rw [Designator.compile]
      refine (d.safe_compile s).bind fun x _ _ hx => .log_bind .shift fun _ _ he => ?_
      refine (Safe.load (hx.mono he)).bind fun x _ _ hx =>
        (Safe.inspect (by simpa using hx.type)).bind fun _ _ he _ =>
        .log_bind (.faultIf _ _) fun _ s' he' => ?_
      refine (index.safe_compile s').bind fun i _ he'' hi => .log_bind (.faultIf _ _) fun _ _ he₃ => ?_
      refine (Safe.load (hi.mono he₃)).bind fun _ _ he₄ _ => .log_bind (.expect _ _) fun _ _ he₅ =>
        .of_sound fun hs => .pure (.of_type ?_ rfl)
      have hx' := (((((hx.mono he).mono he').mono he'').mono he₃).mono he₄).mono he₅
      exact hx'.type.element hs.table.void_in

theorem safe_compileArguments (s : Compiler) (first : Bool) :
    (arguments : List Expr) → (formals : List Ty) → (∀ type ∈ formals, type.In s.table) →
      Safe (compileArguments first arguments formals) s fun t types => ∀ type ∈ types, type.In t
  | [], formals, h => by
      rw [compileArguments]
      exact .pure h
  | e :: es, formals, h => by
      rw [compileArguments]
      refine .log_bind (.shiftUnless first) fun _ s' he => (e.safe_compile s').bind fun x _ he' hx => ?_
      refine (Safe.load hx).bind fun x _ he'' hx => ?_
      have h' := fun type htype =>
        (((h type htype).mono he.below).mono he'.below).mono he''.below
      exact (Safe.passArgument hx h').bind fun left s'' _ hleft =>
        safe_compileArguments s'' false es left hleft

end

theorem safe_compileRelation (r : Option Relation) (s : Compiler) :
    Safe (compileRelation r) s fun _ _ => True := by
  cases r with
  | none => exact .log_bind (.fault _) fun _ _ _ => .pure trivial
  | some r => exact .log_bind .shift fun _ _ _ => .pure trivial

theorem Comparison.safe_compile (c : Comparison) (s : Compiler) :
    Safe c.compile s fun _ _ => True := by
  refine (c.left.safe_compile s).bind fun x _ _ hx => (Safe.load hx).bind fun x s' _ hx => ?_
  refine (safe_compileRelation c.relation s').bind fun r s' he _ =>
    (c.right.safe_compile s').bind fun y _ he' hy => (Safe.load hy).bind fun y _ he'' hy => ?_
  have hx' := ((hx.mono he).mono he').mono he''
  refine (Safe.inspect (by simpa using ⟨hx'.type, hy.type⟩)).bind fun _ _ _ _ => ?_
  exact .log_bind (.faultIf _ _) fun _ _ _ => .log_bind (.faultIf _ _) fun _ _ _ => .pure trivial

end Tree

/-! ### Parts of statements -/

theorem Compiler.OnlyLogs.requireAssignable (x : Operand) : OnlyLogs (requireAssignable x) :=
  .faultIf _ _

theorem Compiler.Safe.compileStep {s : Compiler} {x : Operand} (hx : x.In s.table) (n : Int) :
    Safe (compileStep x n) s fun _ _ => True :=
  .log_bind (.faultIf _ _) fun _ _ he => .log_bind (.requireAssignable x) fun _ _ he' =>
    .log_bind .shift fun _ _ he'' => .increment (((hx.mono he).mono he').mono he'') n

namespace Tree

open Compiler

theorem safe_compileAssignment {s : Compiler} {x : Operand} (hx : x.In s.table) (op : AssignOp)
    (value : Expr) : Safe (compileAssignment x op value) s fun _ _ => True := by
  unfold compileAssignment
  split
  · refine (value.safe_compile s).bind fun y _ he hy => ?_
    refine (Safe.inspect (by simpa using ⟨hy.type, (hx.mono he).type⟩)).bind fun _ _ he' _ =>
      .log_bind (.faultIf _ _) fun _ _ he'' => ?_
    exact (Safe.assign x ((hy.mono he').mono he'')).bind fun _ _ _ _ => .pure trivial
  · next operation h =>
      rcases AssignOp.isStraight_of_opcode? h with ⟨hop, hnone⟩
      refine (Safe.prepareUpdate hx).bind fun _ s' _ _ => (value.safe_compile s').bind
        fun y _ _ hy => .log_bind (.faultIf _ _) fun _ _ he => ?_
      exact (Safe.update x (hy.mono he) hop hnone).bind fun _ _ _ _ => .pure trivial

theorem Action.safe_compile {s : Compiler} {x : Operand} (hx : x.In s.table) :
    (a : Action) → Safe (a.compile x) s fun _ _ => True
  | .assign op value => .log_bind (.requireAssignable x) fun _ _ he => .log_bind .shift fun _ _ he' =>
      safe_compileAssignment ((hx.mono he).mono he') op value
  | .call arguments closed => by
      refine (Safe.passArguments hx closed fun s' formals h =>
        (safe_compileArguments s' true arguments formals h).mono fun _ _ _ => trivial).bind
        fun _ _ he _ => (Safe.call (hx.mono he)).bind fun _ _ _ _ => ?_
      split
      · exact .emit rfl rfl
      · exact .pure trivial
  | .increment => .compileStep hx 1
  | .decrement => .compileStep hx (-1)
  | .missing => .of_onlyLogs (.fault _)

theorem safe_compileReturned {s : Compiler} {result : Ty} (h : result.In s.table) :
    (value : Option Expr) → Safe (compileReturned result value) s fun _ _ => True
  | none => .of_onlyLogs (.faultIf _ _)
  | some e => by
      refine .log_bind (.faultIf _ _) fun _ s' he => (e.safe_compile s').bind fun x _ he' hx => ?_
      have h' := (h.mono he.below).mono he'.below
      refine (Safe.inspect (by simpa using ⟨hx.type, h'⟩)).bind fun _ _ he _ =>
        .log_bind (.faultIf _ _) fun _ _ he' => ?_
      exact (Safe.load ((hx.mono he).mono he')).bind fun _ _ _ _ => .pure trivial

theorem safe_readValue (type : Ty) (s : Compiler) : Safe (readValue type) s fun _ _ => True := by
  cases type with
  | int => exact .emit rfl rfl
  | char => exact .emit rfl rfl
  | _ => exact .of_onlyLogs (.fault _)

theorem onlyLogs_compileWidth (width : Option (Option Int)) : OnlyLogs (compileWidth width) := by
  cases width with
  | none => exact .pure
  | some n => exact OnlyLogs.shift.bind fun _ => .expectNumber 0 n

end Tree

end MicroJava
