import MicroJava.Compiler.Program
import MicroJava.Proofs.RenamedTables

/-!
# Steps with other names

Two compilations are compared step by step, one of a tree and one of the tree with other names.
`Compiler.Renamed` relates their states, which differ in names only, and `Compiler.Renames` says of two
steps that they yield related values and lead from related states to related ones. There is one lemma for
each step that the compilation of a tree is put together from.
-/

namespace MicroJava

variable {ρ : String → String}

/-! ### Renamed outcomes -/

/-- The message with other names, if it mentions a name of the program. -/
def Message.rename (ρ : String → String) : Message → Message
  | duplicateName n => duplicateName (ρ n)
  | unknownName n => unknownName (ρ n)
  | unknownField n => unknownField (ρ n)
  | m => m

/-- The diagnostic at the same place with other names. -/
def Diagnostic.rename (ρ : String → String) (d : Diagnostic) : Diagnostic :=
  { d with message := d.message.rename ρ }

/-- The entry of the log with other names. -/
def Event.rename (ρ : String → String) : Event → Event
  | fault m => fault (m.rename ρ)
  | shift => shift
  | resync => resync

/-- The method with another name. -/
def MethodInfo.rename (ρ : String → String) (m : MethodInfo) : MethodInfo :=
  { m with name := ρ m.name }

/-- The debug information with other names. -/
def DebugInfo.rename (ρ : String → String) (d : DebugInfo) : DebugInfo where
  program := ρ d.program
  globals := d.globals.map ρ
  methods := d.methods.map (MethodInfo.rename ρ)

namespace Compiler

/-- Two states of a compilation that differ in names only. -/
structure Renamed (ρ : String → String) (s s' : Compiler) : Prop where
  table : s.table.Renamed ρ s'.table
  code : s'.code = s.code
  debug : s'.debug = s.debug.rename ρ
  log : s'.log = s.log.map (Event.rename ρ)

theorem renamed_initial (hρ : Faithful ρ) : Renamed ρ initial initial where
  table := SymbolTable.renamed_predeclared hρ
  code := rfl
  debug := by
    have hempty : ρ "" = "" := hρ.reserved "" (by decide)
    simp only [initial, DebugInfo.rename, hempty, Array.map_empty]
  log := Array.map_empty.symm

/-- From states that differ in names only, the two steps lead to such states, and what they yield is
related. -/
def Renames (ρ : String → String) {α α' : Type} (R : α → α' → Prop) (x : CompilerM α) (x' : CompilerM α') :
    Prop :=
  ∀ s s', s.Renamed ρ s' → R (x s).1 (x' s').1 ∧ (x s).2.Renamed ρ (x' s').2

namespace Renames

variable {α α' β β' γ : Type} {R : α → α' → Prop} {S : β → β' → Prop}

theorem pure {a : α} {a' : α'} (ha : R a a') : Renames ρ R (Pure.pure a) (Pure.pure a') :=
  fun _ _ h => ⟨ha, h⟩

theorem bind {x : CompilerM α} {x' : CompilerM α'} {f : α → CompilerM β} {f' : α' → CompilerM β'}
    (hx : Renames ρ R x x') (hf : ∀ a a', R a a' → Renames ρ S (f a) (f' a')) :
    Renames ρ S (x >>= f) (x' >>= f') :=
  fun s s' h => hf _ _ (hx s s' h).1 _ _ (hx s s' h).2

/-- Both steps yield the same. -/
theorem step {x x' : CompilerM α} {f : α → CompilerM β} {f' : α → CompilerM β'}
    (hx : Renames ρ Eq x x') (hf : ∀ a, Renames ρ S (f a) (f' a)) :
    Renames ρ S (x >>= f) (x' >>= f') :=
  hx.bind fun a _ h => h ▸ hf a

/-- Two steps may be looked at together before the third one. -/
theorem assoc {x : CompilerM α} {x' : CompilerM α'} {f : α → CompilerM γ} {f' : α' → CompilerM γ}
    {g : γ → CompilerM β} {g' : γ → CompilerM β'}
    (h : Renames ρ S ((x >>= f) >>= g) ((x' >>= f') >>= g')) :
    Renames ρ S (x >>= fun a => f a >>= g) (x' >>= fun a => f' a >>= g') := by
  rwa [bind_assoc, bind_assoc] at h

/-- The state is looked at. -/
theorem get_bind {f : Compiler → CompilerM β} {f' : Compiler → CompilerM β'}
    (hf : ∀ s s', s.Renamed ρ s' → Renames ρ S (f s) (f' s')) :
    Renames ρ S (get >>= f) (get >>= f') :=
  fun s s' h => hf s s' h s s' h

theorem modify {f f' : Compiler → Compiler} (hf : ∀ s s', s.Renamed ρ s' → (f s).Renamed ρ (f' s')) :
    Renames ρ Eq (modify f : CompilerM Unit) (modify f') :=
  fun s s' h => ⟨rfl, hf s s' h⟩

theorem ite {c : Prop} [Decidable c] {x y : CompilerM α} {x' y' : CompilerM α'} (hx : Renames ρ R x x')
    (hy : Renames ρ R y y') : Renames ρ R (if c then x else y) (if c then x' else y') := by
  split
  · exact hx
  · exact hy

theorem forM {f : γ → CompilerM PUnit} {k : γ → γ} (l : List γ) (h : ∀ c, Renames ρ Eq (f c) (f (k c))) :
    Renames ρ Eq (l.forM f) ((l.map k).forM f) := by
  induction l with
  | nil => exact pure rfl
  | cons c l ih => exact (h c).step fun _ => ih

/-! ### The log -/

theorem refer (rs rs' : List Reference) : Renames ρ Eq (refer rs) (refer rs') :=
  fun _ _ h => ⟨rfl, h.table, h.code, h.debug, h.log⟩

theorem record (e : Event) : Renames ρ Eq (record e) (record (e.rename ρ)) :=
  fun s _ h => ⟨rfl, h.table, h.code, h.debug, by
    change Array.push _ _ = Array.map _ (Array.push s.log e)
    rw [h.log, Array.map_push]⟩

theorem fault (m : Message) : Renames ρ Eq (fault m) (fault (m.rename ρ)) := record (.fault m)

theorem faultIf (c : Bool) (m : Message) : Renames ρ Eq (faultIf c m) (faultIf c (m.rename ρ)) :=
  .ite (fault m) (pure rfl)

theorem shift : Renames ρ Eq shift shift := record .shift

theorem shiftUnless (first : Bool) : Renames ρ Eq (shiftUnless first) (shiftUnless first) :=
  .ite (pure rfl) shift

theorem skip (m : Message) (more : Nat) : Renames ρ Eq (skip m more) (skip (m.rename ρ) more) := by
  have hshifts : Renames ρ Eq (shifts (more + 1)) (shifts (more + 1)) :=
    fun s _ h => ⟨rfl, h.table, h.code, h.debug, by
      change _ ++ Array.replicate _ _ = Array.map _ (s.log ++ Array.replicate _ Event.shift)
      rw [h.log, Array.map_append, Array.map_replicate]
      rfl⟩
  exact (fault m).step fun _ => hshifts.step fun _ => record .resync

theorem expect (kind : Kind) (found : Bool) : Renames ρ Eq (expect kind found) (expect kind found) :=
  .ite shift (fault (.expected kind))

/-- The empty name stands in for a missing one, so it must be kept. -/
theorem expectName (hρ : Faithful ρ) (n : Option String) :
    Renames ρ (fun a a' => a' = ρ a) (expectName n) (expectName (n.map ρ)) := by
  cases n with
  | some n => exact shift.step fun _ => pure rfl
  | none => exact (fault (.expected .ident)).step fun _ => pure (hρ.reserved "" (by decide)).symm

theorem expectNumber (substitute : Int) (n : Option Int) :
    Renames ρ Eq (expectNumber substitute n) (expectNumber substitute n) := by
  cases n with
  | some n => exact shift.step fun _ => pure rfl
  | none => exact (fault (.expected .number)).step fun _ => pure rfl

/-! ### The symbol table -/

theorem modifyTable {f f' : SymbolTable → SymbolTable}
    (hf : ∀ t t', t.Renamed ρ t' → (f t).Renamed ρ (f' t')) :
    Renames ρ Eq (modifyTable f) (modifyTable f') :=
  fun _ _ h => ⟨rfl, hf _ _ h.table, h.code, h.debug, h.log⟩

theorem symbol (id : SymbolId) : Renames ρ Symbol.Alike (symbol id) (symbol id) :=
  (refer _ _).step fun _ => .get_bind fun _ _ h => pure (h.table.symbol id)

/-- Whatever is seen of a symbol except its name is seen in both tables. -/
theorem symbols (ids : Array SymbolId) :
    Renames ρ (fun xs xs' => ∀ k : Symbol → Ty, (∀ x x' : Symbol, x.Alike x' → k x' = k x) →
      xs'.map k = xs.map k) (symbols ids) (symbols ids) :=
  (refer _ _).step fun _ => .get_bind fun s s' h => pure fun k hk => by
    rw [Array.map_map, Array.map_map]
    exact Array.map_congr_left fun id _ => hk _ _ (h.table.symbol id)

theorem modifySymbol (id : SymbolId) {f : Symbol → Symbol}
    (hf : ∀ x n, f { x with name := n } = { f x with name := n }) :
    Renames ρ Eq (modifySymbol id f) (modifySymbol id f) :=
  (refer _ _).step fun _ => modifyTable fun _ _ h => h.modifySymbol id hf

theorem scope : Renames ρ (Scope.Renamed ρ) scope scope :=
  .get_bind fun _ _ _ => (refer _ _).step fun _ => .get_bind fun _ _ h => pure h.table.current

theorem openScope : Renames ρ Eq openScope openScope :=
  modifyTable fun _ _ h => h.openScope

theorem closeScope : Renames ρ Eq closeScope closeScope :=
  scope.bind fun _ _ _ => modifyTable fun _ _ h => h.closeScope

theorem currentLocals : Renames ρ Eq currentLocals currentLocals :=
  scope.bind fun _ _ h => pure h.locals.symm

theorem variableCount : Renames ρ Eq variableCount variableCount :=
  scope.bind fun _ _ h => pure h.variableCount.symm

theorem declare (hρ : Faithful ρ) (kind : SymbolKind) (n : String) (type : Ty) :
    Renames ρ Eq (declare kind n type) (declare kind (ρ n) type) := by
  refine scope.bind fun c c' h => ?_
  rw [h.declares]
  exact (faultIf _ (.duplicateName n)).step fun _ s s' h =>
    ⟨h.table.size.symm, h.table.declare hρ.injective kind n type, h.code, h.debug, h.log⟩

theorem find (n : String) : Renames ρ Eq (find n) (find (ρ n)) := by
  refine .get_bind fun _ _ _ => (refer _ _).step fun _ => .get_bind fun s s' h => ?_
  rw [h.table.lookup?]
  cases s.table.lookup? n with
  | some id => exact pure rfl
  | none => exact (fault (.unknownName n)).step fun _ => pure rfl

theorem inspect (types : List Ty) : Renames ρ Eq (inspect types) (inspect types) := refer _ _

theorem fields (type : Ty) : Renames ρ Eq (fields type) (fields type) :=
  (refer _ _).step fun _ => .get_bind fun _ _ h => pure (h.table.fields_eq type).symm

theorem findField (hρ : Faithful ρ) (type : Ty) (n : String) :
    Renames ρ Eq (findField type n) (findField type (ρ n)) := by
  refine (fields type).step fun _ => (refer _ _).step fun _ => .get_bind fun s s' h => ?_
  rw [h.table.field? hρ.injective]
  cases s.table.field? type n with
  | some id => exact pure rfl
  | none => exact (fault (.unknownField n)).step fun _ => pure rfl

theorem newArray (element : Ty) : Renames ρ Eq (newArray element) (newArray element) := by
  intro s s' h
  have htype : s'.table.nextArray element = s.table.nextArray element := by
    rw [SymbolTable.nextArray, SymbolTable.nextArray, h.table.types]
  refine ⟨htype.symm, ?_, h.code, h.debug, h.log⟩
  change (s.table.addType _).Renamed ρ (s'.table.addType (s'.table.nextArray element))
  rw [htype]
  exact h.table.addType _

theorem newObject : Renames ρ Eq newObject newObject := by
  intro s s' h
  have htype : s'.table.nextObject = s.table.nextObject := by
    rw [SymbolTable.nextObject, SymbolTable.nextObject, h.table.types]
  refine ⟨htype.symm, ?_, h.code, h.debug, h.log⟩
  change (s.table.addType _).Renamed ρ (s'.table.addType s'.table.nextObject)
  rw [htype]
  exact h.table.addType _

/-! ### The code -/

theorem modifyCode (f : Emitter → Emitter) : Renames ρ Eq (modifyCode f) (modifyCode f) :=
  fun _ _ h => ⟨rfl, h.table, congrArg f h.code, h.debug, h.log⟩

theorem write (i : Item) : Renames ρ Eq (write i) (write i) :=
  fun _ _ h => ⟨rfl, h.table, congrArg (·.write i) h.code, h.debug, h.log⟩

theorem emit (op : Opcode) (operands : List Int) : Renames ρ Eq (emit op operands) (emit op operands) :=
  write _

theorem emitAll (operations : List Operation) : Renames ρ Eq (emitAll operations) (emitAll operations) := by
  induction operations with
  | nil => exact pure rfl
  | cons o os ih => exact (emit o.1 o.2).step fun _ => ih

theorem takeFarCount : Renames ρ Eq takeFarCount takeFarCount :=
  .get_bind fun _ _ h => (modifyCode _).step fun _ => pure (by rw [h.code])

theorem pc : Renames ρ Eq pc pc := .get_bind fun _ _ h => pure (by rw [h.code])

theorem newLabel : Renames ρ Eq newLabel newLabel :=
  .get_bind fun _ _ h => (write .label).step fun _ => pure (by rw [h.code])

theorem place (l : Label) : Renames ρ Eq (place l) (place l) :=
  .get_bind fun _ _ _ => (refer _ _).step fun _ => write _

theorem jumpWith (op : Opcode) (l : Label) : Renames ρ Eq (jumpWith op l) (jumpWith op l) :=
  (refer _ _).step fun _ => write _

/-! ### Operands -/

theorem operandOf (id : SymbolId) : Renames ρ Eq (operandOf id) (operandOf id) := by
  refine (symbol id).bind fun x x' h => ?_
  have hsame : Operand.ofSymbol? x' id = Operand.ofSymbol? x id := by
    rw [h]
    rfl
  rw [hsame]
  cases Operand.ofSymbol? x id with
  | some y => exact pure rfl
  | none => exact (fault .notOperand).step fun _ => pure rfl

theorem load (x : Operand) : Renames ρ Eq (load x) (load x) := by
  rw [Compiler.load]
  cases x.loadCode? with
  | some operations => exact (emitAll operations).step fun _ => pure rfl
  | none => exact (fault .notValue).step fun _ => pure rfl

theorem store (x : Operand) : Renames ρ Eq (store x) (store x) := by
  rw [Compiler.store]
  cases x.storeCode? with
  | some operations => exact emitAll operations
  | none => exact fault .notValue

theorem assign (x y : Operand) : Renames ρ Eq (assign x y) (assign x y) :=
  (load y).step fun _ => (store x).step fun _ => pure rfl

theorem prepareUpdate (x : Operand) : Renames ρ Eq (prepareUpdate x) (prepareUpdate x) :=
  (emitAll _).step fun _ => (load x).step fun _ => pure rfl

theorem update (x y : Operand) (op : Opcode) : Renames ρ Eq (update x y op) (update x y op) :=
  (load y).step fun _ => (emit op []).step fun _ => (store x).step fun _ => pure rfl

theorem increment (x : Operand) (n : Int) : Renames ρ Eq (increment x n) (increment x n) := by
  let general : CompilerM Unit := do
    Compiler.prepareUpdate x
    let _ ← Compiler.update x (Operand.constant n .int) .add
  have hgeneral : Renames ρ Eq general general :=
    (prepareUpdate x).step fun _ => (update x _ .add).step fun _ => pure rfl
  rw [Compiler.increment]
  cases x.location with
  | localVar slot => exact .ite (emit .inc [slot, n]) hgeneral
  | _ => exact hgeneral

theorem call (x : Operand) : Renames ρ Eq (call x) (call x) := by
  rw [Compiler.call]
  cases x.location with
  | method id =>
      refine .ite (pure rfl) (.ite (emit .arrayLength []) ((symbol id).bind fun c c' h => ?_))
      rw [h]
      exact write _
  | _ => exact pure rfl

end Renames

end Compiler

end MicroJava
