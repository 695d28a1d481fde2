import MicroJava.Proofs.Entries
import MicroJava.Proofs.MethodCode
import MicroJava.Proofs.ScopeStack

/-!
# The symbols of a program

Whatever a program looks like, its declarations and methods make the symbols of its entries one after
the other (`Tree.Program.entries`). Each part of a program makes its entries from any table
(`Compiler.Enters`), and a method besides gets the address at which its code begins. So at the end of a
compilation only the predeclared names and that of the program are known, and from the symbol of the
program lead the numbers to everything that was declared (`TokenSource.compile_records`).
-/

namespace MicroJava

/-! ### The entries of a tree -/

namespace Tree

/-- The names of the variables in several declarations. -/
def variableNames (ds : List VariableDecl) : List String :=
  ds.flatMap fun d => d.names.map fun name => name.getD ""

/-- A class with its fields. -/
def ClassDecl.entry (d : ClassDecl) : Entry :=
  { kind := .type, name := d.name.getD "", locals := variableNames d.fields }

/-- What a declaration declares. -/
def Declaration.entries : Declaration → List Entry
  | .constant d => [{ kind := .constant, name := d.name.getD "" }]
  | .globals d => (variableNames [d]).map .ofVariable
  | .object d => [d.entry]
  | .skipped _ => []

/-- A method with its parameters and variables. -/
def MethodDecl.entry (d : MethodDecl) : Entry where
  kind := .method
  name := d.name.getD ""
  parameters := d.parameters.map fun p => p.name.getD ""
  locals := variableNames d.locals

/-- The methods of a program, as far as they are any. -/
def Member.entries : Member → List Entry
  | .method d => [d.entry]
  | .skipped _ => []

/-- What a program declares, in the order of its text. -/
def Program.entries (p : Program) : List Entry :=
  p.declarations.flatMap Declaration.entries ++ p.members.flatMap Member.entries

end Tree

namespace Compiler

variable {α β : Type} {es es' : List Entry} {s s' : Compiler}

/-! ### Steps that make entries -/

theorem Steps.makes {allowed : Item → Prop} (h : Steps allowed s s') : s.table.Makes [] s'.table := by
  induction h with
  | refl => exact .refl _
  | tail _ h ih =>
      cases h with
      | addType => exact ih.trans (.addType _ _)
      | _ => exact ih

theorem code_faultIf (c : Bool) (m : Message) (s : Compiler) : (faultIf c m s).2.code = s.code := by
  cases c <;> rfl

theorem code_declare (kind : SymbolKind) (name : String) (type : Ty) (s : Compiler) :
    (declare kind name type s).2.code = s.code :=
  code_faultIf _ _ (scope s).2

theorem table_expect (kind : Kind) (found : Bool) (s : Compiler) :
    (expect kind found s).2.table = s.table := by
  cases found <;> rfl

namespace Ensures

variable {x : CompilerM α} {f : α → CompilerM β} {P : α → Compiler → Prop} {Q : β → Compiler → Prop}
  {t : SymbolTable}

/-- Nothing has to be known of the first step but its table. -/
theorem table_bind (hx : (x s).2.table = t)
    (hf : ∀ a s', s'.table = t → Ensures (f a) s' Q) : Ensures (x >>= f) s Q :=
  hf _ _ hx

/-- Nothing has to be known of the first step but its value and its table. -/
theorem value_bind {a : α} (ha : (x s).1 = a) (hx : (x s).2.table = t)
    (hf : ∀ s', s'.table = t → Ensures (f a) s' Q) : Ensures (x >>= f) s Q := by
  subst ha
  exact hf _ hx

theorem table_mono (hx : (x s).2.table = t) (h : ∀ a s', s'.table = t → P a s') : Ensures x s P :=
  h _ _ hx

end Ensures

/-- In whatever state, the step makes these entries. -/
def Enters (es : List Entry) (x : CompilerM α) : Prop :=
  ∀ s, Ensures x s fun _ s' => s.table.Makes es s'.table

namespace Enters

variable {x : CompilerM α} {f : α → CompilerM β}

theorem bind (hx : Enters es x) (hf : ∀ a, Enters es' (f a)) : Enters (es ++ es') (x >>= f) :=
  fun s => (hx s).trans (hf _ _)

/-- Nothing is made so far. -/
theorem quietly (hx : Enters [] x) (hf : ∀ a, Enters es (f a)) : Enters es (x >>= f) :=
  hx.bind hf

/-- Nothing is made from here on. -/
theorem finish (hx : Enters es x) (hf : ∀ a, Enters [] (f a)) : Enters es (x >>= f) := by
  have h := hx.bind hf
  rwa [List.append_nil] at h

theorem of_emits {allowed : Item → Prop} (hx : Emits allowed x) : Enters [] x :=
  fun s => (hx s).makes

/-- A step that writes no code either. -/
theorem silent (hx : Emits (fun _ => False) x) : Enters [] x := of_emits hx

theorem pure {a : α} : Enters [] (Pure.pure a) := silent .pure

/-- The empty name stands in for one that is not there. -/
theorem expectName_bind (name : Option String) {f : String → CompilerM β}
    (hf : Enters es (f (name.getD ""))) : Enters es (expectName name >>= f) := by
  intro s
  have hname : Enters [] (expectName name) := silent (.expectName name)
  have h := hf (expectName name s).2
  rw [← fst_expectName name s] at h
  exact (hname s).trans h

theorem forM {γ : Type} {g : γ → CompilerM PUnit} {l : List γ} {es : γ → List Entry}
    (h : ∀ c, Enters (es c) (g c)) : Enters (l.flatMap es) (l.forM g) := by
  induction l with
  | nil => exact pure
  | cons c l ih => exact (h c).bind fun _ => ih

/-- Each element of a list makes one entry. -/
theorem forM_map {γ : Type} {g : γ → CompilerM PUnit} {l : List γ} {e : γ → Entry}
    (h : ∀ c, Enters [e c] (g c)) : Enters (l.map e) (l.forM g) := by
  rw [List.map_eq_flatMap]
  exact forM h

theorem declare {kind : SymbolKind} (hkind : kind ≠ .method ∧ kind ≠ .type) (name : String) (type : Ty) :
    Enters [{ kind, name }] (declare kind name type) := by
  intro s
  change s.table.Makes _ (Compiler.declare kind name type s).2.table
  rw [table_declare]
  exact .declare s.table hkind name type

end Enters

end Compiler

namespace Tree

open Compiler

/-! ### Declarations -/

theorem enters_declareVariable (type : Ty) (name : Option String) :
    Enters [.ofVariable (name.getD "")] (declareVariable type name) :=
  have hkind : SymbolKind.variable ≠ .method ∧ SymbolKind.variable ≠ .type := by decide
  .expectName_bind name ((Enters.declare hkind _ type).finish fun _ => .pure)

theorem VariableDecl.enters_compile (d : VariableDecl) :
    Enters ((variableNames [d]).map .ofVariable) d.compile := by
  have hothers (type : Ty) : Enters (d.others.map fun name => .ofVariable (name.getD ""))
      (d.others.forM fun name => do
        shift
        declareVariable type name) :=
    Enters.forM_map fun name => (Enters.silent .shift).quietly fun _ =>
      enters_declareVariable type name
  have hentries : (variableNames [d]).map Entry.ofVariable =
      .ofVariable (d.first.getD "") :: d.others.map fun name => .ofVariable (name.getD "") := by
    simp [variableNames, VariableDecl.names]
  rw [hentries]
  exact (Enters.silent (TypeName.emits_compile d.type)).quietly fun type =>
    (enters_declareVariable type d.first).bind fun _ =>
      (hothers type).finish fun _ => .silent (.expect _ d.ended)

theorem enters_variables (ds : List VariableDecl) :
    Enters ((variableNames ds).map .ofVariable) (ds.forM VariableDecl.compile) := by
  have hentries : (variableNames ds).map Entry.ofVariable =
      ds.flatMap fun d => (variableNames [d]).map Entry.ofVariable := by
    simp [variableNames, List.map_flatMap]
  rw [hentries]
  exact .forM VariableDecl.enters_compile

theorem enters_compileParameters (first : Bool) (ps : List Parameter) :
    Enters ((ps.map fun p => p.name.getD "").map .ofVariable) (compileParameters first ps) := by
  induction ps generalizing first with
  | nil => exact .pure
  | cons p ps ih =>
      exact (Enters.silent (.shiftUnless first)).quietly fun _ =>
        (Enters.silent (TypeName.emits_compile p.type)).quietly fun type =>
          (enters_declareVariable type p.name).bind fun _ => ih false

/-- The value of a constant is filled in, if there is one. -/
theorem ConstantValue.table_compile (value : ConstantValue) (type : Ty) (id : SymbolId) (s : Compiler) :
    Ensures (value.compile type id) s fun _ s' => s'.table = s.table ∨
      ∃ v, s'.table = s.table.modifySymbol id ({ · with value := v }) := by
  have htake (shape : TyShape) (v : Int) : (compile.take type id shape v s).2.table =
      s.table.modifySymbol id ({ · with value := v }) :=
    congrArg (·.modifySymbol id ({ · with value := v })) (table_faultIf _ _ (inspect [type] s).2)
  cases value with
  | number v => exact .inr ⟨v, htake _ v⟩
  | char v => exact .inr ⟨v, htake _ v⟩
  | missing => exact .inl rfl

theorem ConstantDecl.enters_compile (d : ConstantDecl) :
    Enters [{ kind := .constant, name := d.name.getD "" }] d.compile := by
  have hkind : SymbolKind.constant ≠ .variable ∧ SymbolKind.constant ≠ .method ∧
      SymbolKind.constant ≠ .type := by decide
  have hname (type : Ty) (name : String) : Enters [{ kind := .constant, name }] (do
      let id ← declare .constant name type
      expect .assign d.assigned
      d.value.compile type id
      expect .semicolon d.ended) := by
    intro s
    refine .value_bind (fst_declare _ _ _ _) (table_declare _ _ _ _) fun s₁ h₁ => ?_
    refine .table_bind ((table_expect _ _ _).trans h₁) fun _ s₂ h₂ => ?_
    refine Ensures.bind (d.value.table_compile type s.table.nextSymbol s₂) fun _ s₃ h₃ => ?_
    refine .table_mono (table_expect _ _ _) fun _ s₄ h₄ => ?_
    rw [h₂] at h₃
    rw [h₄]
    rcases h₃ with h₃ | ⟨v, h₃⟩
    · rw [h₃]
      exact .declare s.table hkind.2 name type
    · rw [h₃]
      exact .declare_modifySymbol s.table hkind name type fun _ => ⟨rfl, rfl⟩
  exact (Enters.silent .shift).quietly fun _ =>
    (Enters.silent (TypeName.emits_compile d.type)).quietly fun type =>
      .expectName_bind d.name (hname type _)

/-- The fields of a class are what is declared in a scope of its own. -/
theorem ensures_compileFields (fields : List VariableDecl) (s : Compiler) :
    Ensures (compileFields fields) s fun ids s' => ∃ t,
      s.table.openScope.Makes ((variableNames fields).map .ofVariable) t ∧ ids = t.current.locals ∧
        s'.table = t.closeScope := by
  refine ensures_openScope_bind ((enters_variables fields s.inScope).bind fun _ s₁ h₁ => ?_)
  refine .table_bind (t := s₁.table) rfl fun count s₂ h₂ => ?_
  refine .table_bind ((table_faultIf _ _ _).trans h₂) fun _ s₃ h₃ => ?_
  refine .value_bind rfl (t := s₁.table) h₃ fun s₄ h₄ => ?_
  refine .table_bind (congrArg SymbolTable.closeScope h₄) fun _ s₅ h₅ => .pure ⟨s₁.table, h₁, ?_, h₅⟩
  exact congrArg (fun t => t.current.locals) h₃

theorem closeScope_setFields (t : SymbolTable) (type : Ty) (fields : Array SymbolId) :
    (t.setFields type fields).closeScope = t.closeScope.setFields type fields := by
  rcases t with ⟨_, _, _, outer, _⟩
  cases outer <;> rfl

theorem ClassDecl.enters_compile (d : ClassDecl) : Enters [d.entry] d.compile := by
  refine (Enters.silent .shift).quietly fun _ => .expectName_bind d.name fun s => ?_
  refine .value_bind (a := s.table.nextObject) rfl (t := s.table.addType s.table.nextObject) rfl
    fun s₁ h₁ => ?_
  refine .table_bind ((table_declare _ _ _ _).trans (by rw [h₁])) fun _ s₂ h₂ => ?_
  refine .table_bind ((table_expect _ _ _).trans h₂) fun _ s₃ h₃ => ?_
  refine (ensures_compileFields d.fields s₃).bind fun ids s₄ ⟨t, ht, hids, h₄⟩ => ?_
  let type := s.table.nextObject
  refine .table_bind (congrArg (·.setFields type ids) h₄) fun _ s₅ h₅ => ?_
  refine .table_mono ((table_expect _ _ _).trans h₅) fun _ s₆ h₆ => ?_
  -- the scope of the class was opened, its fields were declared, and its type gets them
  let c : Symbol := { kind := .type, name := d.name.getD "", type }
  have hopen : s.table.Opens c [] s₃.table.openScope := by
    rw [h₃]
    exact .openScope (.addType _ _) (nofun : SymbolKind.type ≠ .variable) _ _
  have hfields : s.table.Opens c d.entry.inner t := hopen.makes ht
  have hframe : t.Frame ids := hids ▸ (hfields.inside.frame fun _ => Entry.isVariable_of_mem_namings).1
  have hknown : type.id < t.types.size := by
    refine Nat.lt_of_lt_of_le ?_ ht.types
    change type.id < s₃.table.types.size
    rw [h₃]
    exact Nat.lt_of_lt_of_eq (Nat.lt_succ_self _) (Array.size_push _).symm
  have hinner : ∀ e ∈ d.entry.inner, e.kind ≠ .type := by
    intro e he
    obtain ⟨name, -, rfl⟩ := List.mem_map.1 he
    exact SymbolKind.noConfusion
  have hnew : s.table.types.size ≤ type.id := Nat.le_refl _
  have hset := hfields.setFields hinner hnew hframe
  rw [h₆, ← closeScope_setFields]
  refine hset.close rfl rfl (fun _ hkind => SymbolKind.noConfusion hkind) fun _ _ => ?_
  have hids' : (t.setFields type ids).fields type = ids := SymbolTable.fields_setFields rfl hknown ids
  refine hset.hasFields (hknown.trans_eq Array.size_modify.symm) ?_ ?_
  · rw [hids', hids]
    exact hfields.inside.holds.locals
  · rw [hids']
    exact hframe.mono (.of_symbols rfl)

theorem Declaration.enters_compile (d : Declaration) : Enters d.entries d.compile := by
  cases d with
  | constant d => exact d.enters_compile
  | globals d => exact d.enters_compile
  | object d => exact d.enters_compile
  | skipped more => exact .silent (.skip _ more)

/-! ### Methods -/

/-- The symbol of a method with these parameters and variables. -/
def Signature.symbol (m : Signature) (locals : Array SymbolId) : Symbol where
  kind := .method
  name := m.name
  type := m.result
  address := m.entry
  parameterCount := m.parameterCount
  locals := locals

/-- The method begins in this state. -/
structure Signature.BeginsIn (m : Signature) (d : MethodDecl) (s : Compiler) : Prop where
  id : m.id = s.table.nextSymbol
  name : m.name = d.name.getD ""
  entry : m.entry = s.code.pc

theorem MethodDecl.ensures_declare (d : MethodDecl) (s : Compiler) : Ensures d.declare s fun m s' =>
    m.BeginsIn d s ∧ s.table.Opens (m.symbol #[]) [] s'.table.openScope := by
  have hresult : Ensures (compileResult d.type) s fun _ s' => s.table.Makes [] s'.table ∧
      s'.code = s.code :=
    have hsteps : Steps (fun _ => False) s _ := emits_compileResult d.type s
    ⟨hsteps.makes, hsteps.writes_nil.code⟩
  refine hresult.bind fun result s₁ ⟨h₁, hcode₁⟩ => ?_
  have hname : Ensures (expectName d.name) s₁ fun name s' => name = d.name.getD "" ∧
      s₁.table.Makes [] s'.table ∧ s'.code = s₁.code :=
    have hsteps : Steps (fun _ => False) s₁ _ := Emits.expectName d.name s₁
    ⟨fst_expectName _ _, hsteps.makes, hsteps.writes_nil.code⟩
  refine hname.bind fun name s₂ ⟨hname, h₂, hcode₂⟩ => ?_
  refine Ensures.bind (P := fun id s' => id = s₂.table.nextSymbol ∧
    s'.table = s₂.table.declare .method name result ∧ s'.code = s₂.code)
    ⟨fst_declare _ _ _ _, table_declare _ _ _ _, code_declare _ _ _ _⟩ fun id s₃ ⟨hid, h₃, hcode₃⟩ => ?_
  refine ensures_pc_bind ?_
  have hmakes : s.table.Makes [] s₂.table := h₁.trans h₂
  have hnext : s₂.table.nextSymbol = s.table.nextSymbol := hmakes.next
  have hopen := SymbolTable.Opens.openScope hmakes (nofun : SymbolKind.method ≠ .variable) name result
  refine .table_bind (congrArg (·.modifySymbol id ({ · with address := s₃.code.pc })) h₃)
    fun _ s₄ h₄ => .pure ⟨⟨hid.trans hnext, hname, ?_⟩, ?_⟩
  · rw [hcode₃, hcode₂, hcode₁]
  · rw [h₄, hid, hnext]
    exact hopen.modifySymbol (f := ({ · with address := s₃.code.pc })) fun _ => ⟨rfl, rfl⟩

theorem table_noteMain (name : String) (result : Ty) (entry parameterCount : Nat) (s : Compiler) :
    (noteMain name result entry parameterCount s).2.table = s.table := by
  unfold noteMain
  split
  · exact (table_faultIf _ _ _).trans (table_faultIf _ _ _)
  · rfl

/-- The parameters are declared in the scope of the method, which stays open. -/
theorem MethodDecl.ensures_compileSignature (d : MethodDecl) (s : Compiler) :
    Ensures d.compileSignature s fun m s' => m.BeginsIn d s ∧
      m.parameterCount = (Entry.bound (s.table.nextSymbol + 1) (d.entry.parameters.map .ofVariable)).length ∧
      s.table.Opens (m.symbol #[]) (d.entry.parameters.map .ofVariable) s'.table := by
  refine (d.ensures_declare s).bind fun m s₁ ⟨hm, h₁⟩ => ?_
  refine .table_bind (table_expect _ _ _) fun _ s₂ h₂ => ?_
  refine ensures_openScope_bind ((enters_compileParameters true d.parameters s₂.inScope).bind
    fun _ s₃ h₃ => ?_)
  have hparameters : s.table.Opens (m.symbol #[]) (d.entry.parameters.map .ofVariable) s₃.table := by
    rw [← h₂] at h₁
    exact h₁.makes h₃
  let count := s₃.table.current.variableCount
  refine .value_bind (a := count) rfl (t := s₃.table) rfl fun s₄ h₄ => ?_
  refine .table_bind (congrArg (·.modifySymbol m.id ({ · with parameterCount := count })) h₄)
    fun _ s₅ h₅ => ?_
  refine .table_bind ((table_expect _ _ _).trans h₅) fun _ s₆ h₆ => ?_
  refine .table_bind ((table_noteMain _ _ _ _ _).trans h₆) fun _ s₇ h₇ =>
    .pure ⟨⟨hm.id, hm.name, hm.entry⟩, ?_, ?_⟩
  · rw [Entry.bound, List.length_map]
    exact hparameters.inside.count fun _ => Entry.isVariable_of_mem_namings
  · rw [h₇, hm.id]
    exact hparameters.modifySymbol (f := ({ · with parameterCount := count })) fun _ => ⟨rfl, rfl⟩

/-- The symbol of the method is complete before its statements. -/
theorem MethodDecl.ensures_compileHead (d : MethodDecl) (s : Compiler) :
    Ensures d.compileHead s fun m s' => m.BeginsIn d s ∧
      m.parameterCount = (Entry.bound (s.table.nextSymbol + 1) (d.entry.parameters.map .ofVariable)).length ∧
      ∃ locals : Array SymbolId, locals.toList = Entry.bound (s.table.nextSymbol + 1) d.entry.inner ∧
        s.table.Opens (m.symbol locals) d.entry.inner s'.table := by
  refine (d.ensures_compileSignature s).bind fun m s₁ ⟨hm, hcount, h₁⟩ => ?_
  refine (enters_variables d.locals s₁).bind fun _ s₂ h₂ => ?_
  have hlocals : s.table.Opens (m.symbol #[]) d.entry.inner s₂.table := by
    rw [Entry.inner, List.map_append]
    exact h₁.makes h₂
  refine .table_bind (t := s₂.table) rfl fun count s₃ h₃ => ?_
  refine .table_bind ((table_faultIf _ _ _).trans h₃) fun _ s₄ h₄ => ?_
  refine .table_bind (t := s₂.table) h₄ fun _ s₅ h₅ => ?_
  let locals := s₂.table.current.locals
  refine .value_bind (a := locals) (congrArg (fun t => t.current.locals) h₅) (t := s₂.table) h₅
    fun s₆ h₆ => ?_
  refine .table_bind (congrArg (·.modifySymbol m.id ({ · with locals })) h₆) fun _ s₇ h₇ => ?_
  refine .table_bind (t := s₂.table.modifySymbol m.id ({ · with locals })) h₇ fun _ s₈ h₈ => ?_
  refine .table_bind ((table_expect _ _ _).trans h₈) fun _ s₉ h₉ =>
    .pure ⟨hm, hcount, locals, hlocals.inside.holds.locals, ?_⟩
  rw [h₉, hm.id]
  exact hlocals.modifySymbol (f := ({ · with locals })) fun _ => ⟨rfl, rfl⟩

/-- The scope of the method is closed. -/
theorem MethodDecl.ensures_compileTail (d : MethodDecl) (result : Ty) (s : Compiler) :
    Ensures (d.compileTail result) s fun _ s' => s'.table = s.table.closeScope := by
  refine .table_bind (table_expect _ _ _) fun _ s₁ h₁ => ?_
  refine .table_bind (congrArg SymbolTable.closeScope h₁) fun _ s₂ h₂ => ?_
  refine .table_bind (t := s.table.closeScope) h₂ fun far s₃ h₃ => ?_
  refine .table_bind ((table_faultIf _ _ _).trans h₃) fun _ s₄ h₄ => ?_
  refine (ensures_emitAll _).mono fun _ s₅ ⟨⟨code, items, h₅⟩, _⟩ => ?_
  rw [h₅]
  exact h₄

/-- A method makes its entry, and its address is that of its code. -/
theorem MethodDecl.ensures_compile (d : MethodDecl) (s : Compiler) : Ensures d.compile s fun _ s' =>
    s.table.Makes [d.entry] s'.table ∧
      (s'.table.symbol s.table.nextSymbol).address = s.code.pc := by
  refine (d.ensures_compileHead s).bind fun m s₁ ⟨hm, hcount, locals, hlocals, h₁⟩ => ?_
  have hbody : Enters [] (compileStatements none m.result d.body) :=
    .of_emits (emits_compileStatements none m.result d.body)
  refine (hbody s₁).bind fun _ s₂ h₂ => ?_
  have hinside : s.table.Opens (m.symbol locals) d.entry.inner s₂.table := by
    rw [← List.append_nil d.entry.inner]
    exact h₁.makes h₂
  refine (d.ensures_compileTail m.result s₂).mono fun _ s₃ h₃ => ?_
  rw [h₃, hinside.symbol_close]
  refine ⟨?_, congrArg Nat.cast hm.entry⟩
  exact hinside.close rfl hm.name (fun hlevel _ => hinside.hasLocals hlevel hlocals hcount)
    fun _ hkind => SymbolKind.noConfusion hkind

theorem Member.enters_compile (m : Member) : Enters m.entries m.compile := by
  cases m with
  | method d => exact fun s => (d.ensures_compile s).mono fun _ _ h => h.1
  | skipped more => exact .silent (.skip _ more)

end Tree

/-- The symbol of a method has the address at which its code begins. -/
structure SymbolTable.Starts (t : SymbolTable) (x : SymbolId × Entry) (b : Body) : Prop where
  known : x.1 < t.symbols.size
  address : (t.symbol x.1).address = b.method.entry

theorem SymbolTable.Starts.preserves {t t' : SymbolTable} {x : SymbolId × Entry} {b : Body}
    (h : t.Starts x b) (hp : t.Preserves t') : t'.Starts x b :=
  ⟨h.known.trans_le hp.size, by rw [hp.old _ h.known]; exact h.address⟩

namespace Tree

open Compiler

variable {s : Compiler} {ms : List Member} {bs : List Body}

theorem Member.starts_compile (h : Between ms bs s) (m : Member) : Ensures m.compile s fun _ s' =>
    ∃ bs', Between (ms ++ [m]) (bs ++ bs') s' ∧ s.table.Makes m.entries s'.table ∧
      List.Forall₂ s'.table.Starts (Entry.number s.table.nextSymbol m.entries) bs' := by
  obtain ⟨bs', -, h'⟩ := m.between_compile h
  refine ⟨bs', h', m.enters_compile s, ?_⟩
  have hdecls := h.toCompiled.decls_append h'.toCompiled
  cases m with
  | skipped more =>
      rw [List.map_eq_nil_iff.1 hdecls]
      exact .nil
  | method d =>
      obtain ⟨b, rfl, -⟩ := List.map_eq_singleton_iff.1 hdecls
      obtain ⟨hmakes, haddress⟩ := d.ensures_compile s
      have hentry : b.method.entry = s.code.pc := by
        rw [h.pc_eq]
        exact h'.entries bs b [] rfl
      refine .cons ⟨?_, ?_⟩ .nil
      · have hpos : 0 < d.entry.size := Nat.add_pos_left Nat.one_pos _
        exact Nat.lt_of_lt_of_eq (Nat.lt_add_of_pos_right hpos) hmakes.next.symm
      · rw [hentry]
        exact haddress

/-- The methods of a program begin where their symbols say. -/
theorem starts_compileMembers (h : Between ms bs s) (ms' : List Member) :
    Ensures (ms'.forM Member.compile) s fun _ s' => ∃ bs', Between (ms ++ ms') (bs ++ bs') s' ∧
      s.table.Makes (ms'.flatMap Member.entries) s'.table ∧
      List.Forall₂ s'.table.Starts
        (Entry.number s.table.nextSymbol (ms'.flatMap Member.entries)) bs' := by
  induction ms' generalizing ms bs s with
  | nil => exact ⟨[], by rwa [List.append_nil, List.append_nil], .refl _, .nil⟩
  | cons m ms' ih =>
      obtain ⟨bs₁, h₁, hmakes₁, hstarts₁⟩ := m.starts_compile h
      obtain ⟨bs₂, h₂, hmakes₂, hstarts₂⟩ := ih h₁
      refine ⟨bs₁ ++ bs₂, by rwa [List.append_cons, ← List.append_assoc], hmakes₁.trans hmakes₂, ?_⟩
      rw [List.flatMap_cons, Entry.number_append, ← hmakes₁.next]
      exact List.rel_append (hstarts₁.imp fun _ _ h => h.preserves hmakes₂.toPreserves) hstarts₂

/-! ### Programs -/

theorem table_noteGlobals (s : Compiler) : (noteGlobals s).2.table = s.table :=
  table_faultIf _ _ (Compiler.variableCount s).2

/-- The number of the symbol of a program. -/
def programId : SymbolId := 10

/-- The symbol of a program with these declarations. -/
def Program.symbol (p : Program) (locals : Array SymbolId) : Symbol :=
  { kind := .program, name := p.name.getD "", type := .void, locals }

theorem Program.opens_compileHead (p : Program) : Ensures p.compileHead .initial fun id s =>
    id = programId ∧ SymbolTable.predeclared.Opens (p.symbol #[])
      (p.declarations.flatMap Declaration.entries) s.table := by
  refine (Enters.silent .shift .initial).bind fun _ s₁ h₁ => ?_
  refine .table_bind (table_expect _ _ _) fun _ s₂ h₂ => ?_
  have hname : Ensures (expectName p.name) s₂ fun name s' => name = p.name.getD "" ∧
      s₂.table.Makes [] s'.table :=
    ⟨fst_expectName _ _, Enters.silent (.expectName p.name) s₂⟩
  refine hname.bind fun name s₃ ⟨hname, h₃⟩ => ?_
  have hmakes : SymbolTable.predeclared.Makes [] s₃.table := h₁.trans (h₂ ▸ h₃)
  refine .value_bind (fst_declare _ _ _ _) (table_declare _ _ _ _) fun s₄ h₄ => ?_
  refine .table_bind (t := s₃.table.declare .program name .void) h₄ fun _ s₅ h₅ => ?_
  refine ensures_openScope_bind ?_
  have hopen : SymbolTable.predeclared.Opens (p.symbol #[]) [] s₅.table.openScope := by
    rw [h₅, hname]
    exact .openScope hmakes (nofun : SymbolKind.program ≠ .variable) _ _
  refine (Enters.forM Declaration.enters_compile s₅.inScope).bind fun _ s₆ h₆ => ?_
  refine .table_bind (table_noteGlobals s₆) fun _ s₇ h₇ => ?_
  refine .table_bind ((table_expect _ _ _).trans h₇) fun _ s₈ h₈ => .pure ⟨hmakes.next, ?_⟩
  rw [h₈]
  exact hopen.makes h₆

theorem Program.ensures_compileTail (p : Program) (id : SymbolId) (s : Compiler) :
    Ensures (p.compileTail id) s fun _ s' => s'.table =
      (s.table.modifySymbol id ({ · with locals := s.table.current.locals })).closeScope := by
  refine .table_bind (table_expect _ _ _) fun _ s₁ h₁ => ?_
  let locals := s.table.current.locals
  refine .value_bind (a := locals) (congrArg (fun t => t.current.locals) h₁) (t := s.table) h₁
    fun s₂ h₂ => ?_
  refine .table_bind (congrArg (·.modifySymbol id ({ · with locals })) h₂) fun _ s₃ h₃ => ?_
  refine .table_bind (congrArg SymbolTable.closeScope h₃) fun _ s₄ h₄ => ?_
  refine Ensures.get_bind (.table_bind ((table_faultIf _ _ _).trans h₄) fun _ s₅ h₅ => ?_)
  exact .table_mono ((table_expect _ _ _).trans h₅) fun _ _ h₆ => h₆

/-- What is recorded of a program when it was compiled. Only the predeclared names and its own are known.
The symbol of the program has everything that it declares, of which the first declaration of each name
counts, and its variables have the slots from zero on. -/
structure Program.Recorded (p : Program) (t : SymbolTable) : Prop where
  level : t.level = -1
  predeclared : ∀ id < programId, t.symbol id = SymbolTable.predeclared.symbol id
  lookup : ∀ name, t.lookup? name =
    (SymbolTable.predeclared.lookup? name).or (if name = p.name.getD "" then some programId else none)
  kind : (t.symbol programId).kind = .program
  name : (t.symbol programId).name = p.name.getD ""
  globals : (t.symbol programId).locals.toList = Entry.bound (programId + 1) p.entries
  names : ((t.symbol programId).locals.toList.map fun id => (t.symbol id).name).Nodup
  slots : ∀ (k : Nat) (id : SymbolId),
    ((t.symbol programId).locals.toList.filter fun id => (t.symbol id).kind = .variable)[k]? = some id →
      (t.symbol id).address = k ∧ (t.symbol id).level = 0
  entries : ∀ x ∈ Entry.number (programId + 1) p.entries, t.Records x.1 x.2
  listed : ∀ id ∈ (t.symbol programId).locals, ∃ e ∈ p.entries, t.Records id e
  classes : ∀ type, t.Frame (t.fields type)

theorem fills_predeclared : SymbolTable.predeclared.Fills Names.predeclared.current := by
  have hsymbols : ∀ n ∈ Names.predeclared.current, n.id < SymbolTable.predeclared.symbols.size ∧
      (SymbolTable.predeclared.symbol n.id).name = n.name ∧
      decide ((SymbolTable.predeclared.symbol n.id).kind = .variable) = n.isVariable ∧
      n.isVariable = false := by
    decide
  refine ⟨Names.Describes.predeclared.current, fun n hn => ?_, fun k n hn => ?_⟩
  · obtain ⟨hlt, hname, hkind, -⟩ := hsymbols n hn
    exact ⟨hlt, hname, hkind⟩
  · obtain ⟨hmem, hvariable⟩ := List.mem_filter.1 (List.mem_of_getElem? hn)
    rw [(hsymbols n (mem_of_mem_firstsBy hmem)).2.2.2] at hvariable
    cases hvariable

theorem frame_predeclared (type : Ty) :
    SymbolTable.predeclared.Frame (SymbolTable.predeclared.fields type) := by
  have hnone : ∀ e ∈ SymbolTable.predeclared.types, e.fields = #[] := by simp [SymbolTable.predeclared]
  have hfields : SymbolTable.predeclared.fields type = #[] := by
    unfold SymbolTable.fields
    cases he : SymbolTable.predeclared.types[type.id]? with
    | none => rfl
    | some e => exact hnone e (Array.mem_of_getElem? he)
  rw [hfields]
  exact ⟨fun k id hid => by simp at hid, .nil⟩

/-- In the universe a name stands for its first declaration. -/
theorem lookup?_of_outer_nil {t : SymbolTable} {ns : List Naming} (h : t.Fills ns) (houter : t.outer = [])
    (name : String) : t.lookup? name = Naming.earliest? name ns := by
  rw [SymbolTable.lookup?, houter, List.findSome?_nil, Option.or_none, h.holds.find]

/-- The symbol of a program has what was declared in its scope, and the scope is closed. -/
theorem Program.recorded_closeScope {p : Program} {t : SymbolTable}
    (h : SymbolTable.predeclared.Opens (p.symbol t.current.locals) p.entries t) :
    p.Recorded t.closeScope := by
  have hlevel : t.level = 0 := h.level_eq
  have hsymbol : t.closeScope.symbol programId = p.symbol t.current.locals := h.symbol_close
  have houter : t.closeScope.outer = [] := by
    obtain ⟨scope, houter⟩ := h.outer
    rw [SymbolTable.closeScope, houter]
    rfl
  have hclose : t.Preserves t.closeScope :=
    .of_eq (SymbolTable.symbols_closeScope t) (SymbolTable.types_closeScope t)
  have hsame : t.closeScope.symbol = t.symbol := funext (SymbolTable.symbol_closeScope t)
  have hentries : ∀ x ∈ Entry.number (programId + 1) p.entries, t.closeScope.Records x.1 x.2 :=
    fun x hx => (h.records hlevel x hx).preserves hclose
  have hlocals : t.current.locals.toList = Entry.bound (programId + 1) p.entries := h.inside.holds.locals
  refine ⟨?_, fun id hid => ?_, fun name => ?_, ?_, ?_, ?_, ?_, fun k id hid => ?_, hentries,
    fun id hid => ?_, fun type => ?_⟩
  · rw [SymbolTable.level, houter]
    rfl
  · rw [hsame, h.old id hid]
  · rw [lookup?_of_outer_nil (h.around _ fills_predeclared) houter,
      lookup?_of_outer_nil fills_predeclared rfl, Naming.earliest?, Naming.earliest?,
      List.find?_append, List.find?_singleton, Option.map_or]
    congr 1
    by_cases hname : name = p.name.getD ""
    · simp [Program.symbol, hname]
      rfl
    · simp [Program.symbol, hname, Ne.symm hname]
  · rw [hsymbol]
    rfl
  · rw [hsymbol]
    rfl
  · rw [hsymbol]
    exact hlocals
  · rw [hsymbol, hsame]
    exact h.inside.nodup_names
  · rw [hsymbol, hsame] at hid
    rw [hsame, ← hlevel]
    exact h.inside.slot hid
  · rw [hsymbol] at hid
    have hbound : id ∈ Entry.bound (programId + 1) p.entries := hlocals ▸ Array.mem_toList_iff.2 hid
    obtain ⟨n, hn, rfl⟩ := List.mem_map.1 hbound
    obtain ⟨x, hx, rfl⟩ := List.mem_map.1 (mem_of_mem_firstsBy hn)
    exact ⟨x.2, Entry.snd_mem_of_mem_number hx, hentries x hx⟩
  · rw [SymbolTable.fields_closeScope]
    exact (h.framed frame_predeclared type).mono hclose.keepsNames

theorem Declaration.kind_of_mem_entries {d : Declaration} {e : Entry} (he : e ∈ d.entries) :
    e.kind ≠ .method := by
  cases d with
  | constant d =>
      obtain rfl := List.mem_singleton.1 he
      exact SymbolKind.noConfusion
  | globals d =>
      obtain ⟨name, -, rfl⟩ := List.mem_map.1 he
      exact SymbolKind.noConfusion
  | object d =>
      obtain rfl := List.mem_singleton.1 he
      exact SymbolKind.noConfusion
  | skipped more => exact absurd he List.not_mem_nil

theorem Member.kind_of_mem_entries {m : Member} {e : Entry} (he : e ∈ m.entries) : e.kind = .method := by
  cases m with
  | method d =>
      obtain rfl := List.mem_singleton.1 he
      rfl
  | skipped more => exact absurd he List.not_mem_nil

/-- The methods among the entries of a program come after its declarations. -/
theorem Program.filter_number_entries (p : Program) (id : SymbolId) :
    (Entry.number id p.entries).filter (fun x => x.2.kind = .method) =
      Entry.number (id + Entry.total (p.declarations.flatMap Declaration.entries))
        (p.members.flatMap Member.entries) := by
  rw [Program.entries, Entry.number_append, List.filter_append]
  have hdeclarations : (Entry.number id (p.declarations.flatMap Declaration.entries)).filter
      (fun x => x.2.kind = .method) = [] := by
    rw [List.filter_eq_nil_iff]
    intro x hx
    obtain ⟨d, -, hd⟩ := List.mem_flatMap.1 (Entry.snd_mem_of_mem_number hx)
    simpa using Declaration.kind_of_mem_entries hd
  rw [hdeclarations, List.nil_append, List.filter_eq_self]
  intro x hx
  obtain ⟨m, -, hm⟩ := List.mem_flatMap.1 (Entry.snd_mem_of_mem_number hx)
  simpa using Member.kind_of_mem_entries hm

theorem Program.records_compile (p : Program) : Ensures p.compile .initial fun _ s =>
    ∃ bs, Compiled p.members bs s ∧ p.Recorded s.table ∧ List.Forall₂ s.table.Starts
      ((Entry.number (programId + 1) p.entries).filter fun x => x.2.kind = .method) bs := by
  refine (p.between_compileHead.and p.opens_compileHead).bind
    fun id s₁ ⟨⟨hbetween, hbase, hlt⟩, hid, hopen⟩ => ?_
  refine (starts_compileMembers hbetween p.members).bind fun _ s₂ ⟨bs, h', hmakes, hstarts⟩ => ?_
  refine ((Program.compiled_compileTail h' p hbase (hlt.trans_le hmakes.size)).and
    (p.ensures_compileTail id s₂)).mono fun _ s₃ ⟨⟨hcompiled, _⟩, htable⟩ => ?_
  have hinside : SymbolTable.predeclared.Opens (p.symbol #[]) p.entries s₂.table := hopen.makes hmakes
  have hcomplete := hinside.modifySymbol (f := ({ · with locals := s₂.table.current.locals }))
    fun _ => ⟨rfl, rfl⟩
  rw [hid] at htable
  refine ⟨bs, hcompiled, ?_, ?_⟩
  · rw [htable]
    exact Program.recorded_closeScope hcomplete
  · have hnext : s₁.table.nextSymbol =
        programId + 1 + Entry.total (p.declarations.flatMap Declaration.entries) := hopen.next
    rw [htable, p.filter_number_entries, ← hnext]
    have hlater : ∀ x ∈ Entry.number s₁.table.nextSymbol (p.members.flatMap Member.entries),
        x.1 ≠ programId := by
      intro x hx
      have hle := Entry.le_fst_of_mem_number hx
      rw [hnext] at hle
      exact Nat.ne_of_gt ((Nat.lt_succ_self _).trans_le ((Nat.le_add_right _ _).trans hle))
    refine ((List.forall₂_and_left _ _).2 ⟨hlater, hstarts⟩).imp fun x b ⟨hne, hx⟩ => ⟨?_, ?_⟩
    · rw [SymbolTable.symbols_closeScope]
      exact hx.known.trans_eq Array.size_modify.symm
    · rw [SymbolTable.symbol_closeScope, SymbolTable.Closed.symbol_modifySymbol hne]
      exact hx.address

end Tree

/-- The first instruction of a method is `enter` at this address. -/
def MethodCode.StartsAt (m : MethodCode) (address : Int) : Prop :=
  ∃ (a : Nat) (operands : List Int) (rest : List Instruction),
    m.code = ⟨a, .enter, operands⟩ :: rest ∧ address = a

open MicroJava.Tree

/-- Also for a program with faults, the table at the end records what the program declares, and the
symbols of its methods have the addresses at which their code begins. -/
theorem TokenSource.compile_records (source : TokenSource) (minDistance : Nat) :
    ∃ c, source.compile minDistance = .ok c ∧ (Program.read source.tokens).Recorded c.table ∧
      ∃ ms : List MethodCode,
        ms.map MethodCode.decl = (Program.read source.tokens).members.filterMap Member.method? ∧
        Instruction.decode c.image.code.toList = .ok (ms.flatMap MethodCode.code).toArray ∧
        List.Forall₂ (fun x m => m.StartsAt (c.table.symbol x.1).address)
          ((Entry.number (programId + 1) (Program.read source.tokens).entries).filter
            fun x => x.2.kind = .method) ms := by
  obtain ⟨bs, h, hrecorded, hstarts⟩ := (Program.read source.tokens).records_compile
  refine ⟨_, source.compile_eq_ok minDistance, hrecorded,
    bs.map (Body.toMethodCode source.compiler.code.leadsTo), ?_, h.decode_code, ?_⟩
  · rw [Body.map_decl_toMethodCode, h.decls]
  · rw [List.forall₂_map_right_iff]
    exact hstarts.imp fun x b hx => ⟨b.method.entry, _, _, rfl, hx.address⟩

end MicroJava
