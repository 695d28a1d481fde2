import MicroJava.Proofs.Recording

/-!
# The names in debug information

The debug information of a program is what its symbol table says at the end, whatever faults there
were (`SymbolTable.debugInfo`, `Tree.Program.debug_compile`). The names of the global variables are
noted before the first method, when their number is known. Declarations leave the debug information as
it is (`Compiler.LeavesDebug`), and every method adds what its symbol says of it and nothing else
(`Compiler.Informs`).
-/

namespace MicroJava

open MicroJava.Tree

/-! ### What the symbol table says -/

/-- The debug information about the method that a symbol stands for. -/
def Symbol.info (c : Symbol) : MethodInfo where
  name := c.name
  entry := UInt32.ofNat c.address.toNat
  parameterCount := UInt32.ofNat c.parameterCount
  localCount := UInt32.ofNat c.locals.size

/-- The global variables of a program in order of declaration. -/
def SymbolTable.globals (t : SymbolTable) : List SymbolId :=
  (t.symbol programId).locals.toList.filter fun id => (t.symbol id).kind = .variable

/-- The symbols of the methods of a program in order of declaration. -/
def Tree.Program.methodIds (p : Program) : List SymbolId :=
  ((Entry.number (programId + 1) p.entries).filter fun x => x.2.kind = .method).map Prod.fst

/-- What a symbol table says of the names of a program. -/
def SymbolTable.debugInfo (t : SymbolTable) (p : Program) : DebugInfo where
  program := (t.symbol programId).name
  globals := (t.globals.map fun id => (t.symbol id).name).toArray
  methods := (p.methodIds.map fun id => (t.symbol id).info).toArray

/-! ### The variables of a scope -/

/-- The variables that names stand for in a scope with these namings, in order. -/
def Naming.slotted (ns : List Naming) : List Naming :=
  (firstsBy Naming.name ns).filter Naming.isVariable

/-- Names that stand for no variables make no difference. -/
theorem Naming.slotted_append {ns ns' : List Naming} (h : ∀ n ∈ ns', n.isVariable = false) :
    slotted (ns ++ ns') = slotted ns := by
  induction ns' using List.reverseRecOn with
  | nil => rw [List.append_nil]
  | append_singleton ns' n ih =>
      have hold := ih fun m hm => h m (List.mem_append_left _ hm)
      have hnew : n.isVariable = false := h n (List.mem_append_right _ (List.mem_singleton_self n))
      rw [← List.append_assoc, slotted, firstsBy_concat]
      split
      · exact hold
      · rw [List.filter_append, List.filter_singleton, hnew, cond_false, List.append_nil]
        exact hold

namespace SymbolTable

variable {t : SymbolTable} {ns : List Naming} {p : Program}

/-- The number of variables of a scope is counted while they are declared. -/
theorem Fills.length_slotted (h : t.Fills ns) :
    (Naming.slotted ns).length = t.current.variableCount := by
  rw [h.holds.count, List.countP_eq_length_filter]
  rfl

/-- The names of the variables in the innermost scope, in order of declaration. -/
def currentNames (t : SymbolTable) : Array String :=
  ((t.current.locals.map t.symbol).filter (·.kind = .variable)).map Symbol.name

theorem Fills.names_slotted (h : t.Fills ns) :
    t.currentNames.toList = (Naming.slotted ns).map Naming.name := by
  have hkinds : (firstsBy Naming.name ns).filter (fun n => (t.symbol n.id).kind = .variable) =
      Naming.slotted ns :=
    List.filter_congr fun n hn => (h.symbols n (mem_of_mem_firstsBy hn)).2.2
  have hnames : (Naming.slotted ns).map (fun n => (t.symbol n.id).name) =
      (Naming.slotted ns).map Naming.name :=
    List.map_congr_left fun n hn =>
      (h.symbols n (mem_of_mem_firstsBy (List.mem_filter.1 hn).1)).2.1
  rw [currentNames, Array.toList_map, Array.toList_filter, Array.toList_map, h.holds.locals,
    List.map_map, List.filter_map, List.map_map, ← hnames, ← hkinds]
  rfl

end SymbolTable

namespace Compiler

variable {α β : Type} {s s' s'' : Compiler} {ids ids' : List SymbolId}

/-! ### Steps that name nothing -/

/-- The debug information and the number of variables are as they were. -/
structure SameDebug (s s' : Compiler) : Prop where
  debug : s'.debug = s.debug
  dataSize : s'.code.dataSize = s.code.dataSize

theorem SameDebug.trans (h : s.SameDebug s') (h' : s'.SameDebug s'') : s.SameDebug s'' :=
  ⟨h'.debug.trans h.debug, h'.dataSize.trans h.dataSize⟩

theorem Steps.sameDebug {allowed : Item → Prop} (h : Steps allowed s s') : s.SameDebug s' :=
  ⟨h.debug, (Gains.of_steps (P := fun _ => True) (Q := fun _ _ _ => True) h).dataSize⟩

/-- The step leaves the debug information as it is in whatever state. -/
def LeavesDebug (x : CompilerM α) : Prop := ∀ s, Ensures x s fun _ s' => s.SameDebug s'

namespace LeavesDebug

variable {x : CompilerM α} {f : α → CompilerM β}

theorem of_emits {allowed : Item → Prop} (hx : Emits allowed x) : LeavesDebug x :=
  fun s => (hx s).sameDebug

/-- A step that writes no code. -/
theorem silent (hx : Emits (fun _ => False) x) : LeavesDebug x := of_emits hx

theorem pure {a : α} : LeavesDebug (Pure.pure a) := silent .pure

theorem bind (hx : LeavesDebug x) (hf : ∀ a, LeavesDebug (f a)) : LeavesDebug (x >>= f) :=
  fun s => (hx s).trans (hf _ _)

theorem forM {γ : Type} {g : γ → CompilerM PUnit} {l : List γ} (h : ∀ c, LeavesDebug (g c)) :
    LeavesDebug (l.forM g) := by
  induction l with
  | nil => exact pure
  | cons c l ih => exact (h c).bind fun _ => ih

theorem modifyTable (f : SymbolTable → SymbolTable) : LeavesDebug (modifyTable f) :=
  fun _ => ⟨rfl, rfl⟩

theorem modifySymbol (id : SymbolId) (f : Symbol → Symbol) : LeavesDebug (modifySymbol id f) :=
  fun _ => ⟨rfl, rfl⟩

theorem setFields (type : Ty) (fields : Array SymbolId) : LeavesDebug (setFields type fields) :=
  fun _ => ⟨rfl, rfl⟩

theorem closeScope : LeavesDebug closeScope := fun _ => ⟨rfl, rfl⟩

theorem variableCount : LeavesDebug variableCount := fun _ => ⟨rfl, rfl⟩

theorem currentLocals : LeavesDebug currentLocals := fun _ => ⟨rfl, rfl⟩

theorem declare (kind : SymbolKind) (name : String) (type : Ty) :
    LeavesDebug (declare kind name type) := by
  have hnew : LeavesDebug fun s => (s.table.nextSymbol, { s with table := s.table.declare kind name type }) :=
    fun _ => ⟨rfl, rfl⟩
  have hscope : LeavesDebug scope := fun _ => ⟨rfl, rfl⟩
  exact hscope.bind fun _ => (silent (.faultIf _ _)).bind fun _ => hnew

end LeavesDebug

/-! ### Steps that describe methods -/

/-- The debug information of the methods with these symbols was added, and that is all. -/
structure Informs (ids : List SymbolId) (s s' : Compiler) : Prop where
  program : s'.debug.program = s.debug.program
  globals : s'.debug.globals = s.debug.globals
  methods : s'.debug.methods.toList =
    s.debug.methods.toList ++ ids.map fun id => (s'.table.symbol id).info
  dataSize : s'.code.dataSize = s.code.dataSize

theorem SameDebug.informs (h : s.SameDebug s') : Informs [] s s' where
  program := by rw [h.debug]
  globals := by rw [h.debug]
  methods := by rw [h.debug, List.map_nil, List.append_nil]
  dataSize := h.dataSize

theorem Informs.trans (h : Informs ids s s') (h' : Informs ids' s' s'')
    (hids : ∀ id ∈ ids, s''.table.symbol id = s'.table.symbol id) : Informs (ids ++ ids') s s'' where
  program := h'.program.trans h.program
  globals := h'.globals.trans h.globals
  methods := by
    have hinfos : ids.map (fun id => (s''.table.symbol id).info) =
        ids.map fun id => (s'.table.symbol id).info :=
      List.map_congr_left fun id hid => by rw [hids id hid]
    rw [h'.methods, h.methods, List.map_append, hinfos, List.append_assoc]
  dataSize := h'.dataSize.trans h.dataSize

end Compiler

theorem Entry.fst_lt_of_mem_number {id : SymbolId} {es : List Entry} {x : SymbolId × Entry}
    (h : x ∈ number id es) : x.1 < id + total es := by
  induction es generalizing id with
  | nil => exact absurd h List.not_mem_nil
  | cons e es ih =>
      have htotal : total (e :: es) = e.size + total es := by simp [total]
      have hpos : 0 < e.size := Nat.add_pos_left Nat.one_pos _
      rw [htotal]
      rcases List.mem_cons.1 h with rfl | h
      · exact Nat.lt_add_of_pos_right (Nat.add_pos_left hpos _)
      · rw [← Nat.add_assoc]
        exact ih h

namespace Tree

open Compiler

/-! ### Declarations -/

theorem leavesDebug_declareVariable (type : Ty) (name : Option String) :
    LeavesDebug (declareVariable type name) :=
  (LeavesDebug.silent (.expectName name)).bind fun name =>
    (LeavesDebug.declare .variable name type).bind fun _ => .pure

theorem VariableDecl.leavesDebug_compile (d : VariableDecl) : LeavesDebug d.compile := by
  have hother (type : Ty) (name : Option String) : LeavesDebug (do
      shift
      declareVariable type name) :=
    (LeavesDebug.silent .shift).bind fun _ => leavesDebug_declareVariable type name
  exact (LeavesDebug.silent (TypeName.emits_compile d.type)).bind fun type =>
    (leavesDebug_declareVariable type d.first).bind fun _ =>
      (LeavesDebug.forM (hother type)).bind fun _ => .silent (.expect _ d.ended)

theorem ConstantValue.leavesDebug_compile (type : Ty) (id : SymbolId) (value : ConstantValue) :
    LeavesDebug (value.compile type id) := by
  have htake (shape : TyShape) (v : Int) : LeavesDebug (compile.take type id shape v) :=
    (LeavesDebug.silent (.inspect _)).bind fun _ => (LeavesDebug.silent (.faultIf _ _)).bind fun _ =>
      (LeavesDebug.silent .shift).bind fun _ => .modifySymbol id _
  cases value with
  | number v => exact htake .int v
  | char v => exact htake .char v
  | missing => exact .silent (.fault _)

theorem ConstantDecl.leavesDebug_compile (d : ConstantDecl) : LeavesDebug d.compile :=
  (LeavesDebug.silent .shift).bind fun _ =>
    (LeavesDebug.silent (TypeName.emits_compile d.type)).bind fun type =>
    (LeavesDebug.silent (.expectName d.name)).bind fun name =>
    (LeavesDebug.declare .constant name type).bind fun id =>
    (LeavesDebug.silent (.expect _ d.assigned)).bind fun _ =>
    (d.value.leavesDebug_compile type id).bind fun _ => .silent (.expect _ d.ended)

theorem leavesDebug_compileFields (fields : List VariableDecl) : LeavesDebug (compileFields fields) :=
  (LeavesDebug.modifyTable _).bind fun _ =>
    (LeavesDebug.forM VariableDecl.leavesDebug_compile).bind fun _ => LeavesDebug.variableCount.bind fun _ =>
    (LeavesDebug.silent (.faultIf _ _)).bind fun _ => LeavesDebug.currentLocals.bind fun _ =>
    LeavesDebug.closeScope.bind fun _ => .pure

theorem ClassDecl.leavesDebug_compile (d : ClassDecl) : LeavesDebug d.compile := by
  have hnew : LeavesDebug newObject := fun _ => ⟨rfl, rfl⟩
  exact (LeavesDebug.silent .shift).bind fun _ => (LeavesDebug.silent (.expectName d.name)).bind fun name =>
    hnew.bind fun type => (LeavesDebug.declare .type name type).bind fun _ =>
    (LeavesDebug.silent (.expect _ d.opened)).bind fun _ => (leavesDebug_compileFields d.fields).bind fun ids =>
    (LeavesDebug.setFields type ids).bind fun _ => .silent (.expect _ d.closed)

theorem Declaration.leavesDebug_compile (d : Declaration) : LeavesDebug d.compile := by
  cases d with
  | constant d => exact d.leavesDebug_compile
  | globals d => exact d.leavesDebug_compile
  | object d => exact d.leavesDebug_compile
  | skipped more => exact .silent (.skip _ more)

/-! ### Methods -/

theorem leavesDebug_compileParameters (first : Bool) (ps : List Parameter) :
    LeavesDebug (compileParameters first ps) := by
  induction ps generalizing first with
  | nil => exact .pure
  | cons p ps ih =>
      exact (LeavesDebug.silent (.shiftUnless first)).bind fun _ =>
        (LeavesDebug.silent (TypeName.emits_compile p.type)).bind fun type =>
        (leavesDebug_declareVariable type p.name).bind fun _ => ih false

theorem leavesDebug_noteMain (name : String) (result : Ty) (entry parameterCount : Nat) :
    LeavesDebug (noteMain name result entry parameterCount) := by
  have hentry : LeavesDebug (modifyCode ({ · with entry := some entry })) := fun _ => ⟨rfl, rfl⟩
  unfold noteMain
  split
  · exact hentry.bind fun _ => (LeavesDebug.silent (.faultIf _ _)).bind fun _ => .silent (.faultIf _ _)
  · exact .pure

theorem MethodDecl.leavesDebug_compileSignature (d : MethodDecl) : LeavesDebug d.compileSignature := by
  have hpc : LeavesDebug pc := fun _ => ⟨rfl, rfl⟩
  have hdeclare : LeavesDebug d.declare :=
    (LeavesDebug.silent (emits_compileResult d.type)).bind fun result =>
      (LeavesDebug.silent (.expectName d.name)).bind fun name =>
      (LeavesDebug.declare .method name result).bind fun id => hpc.bind fun _ =>
      (LeavesDebug.modifySymbol id _).bind fun _ => .pure
  exact hdeclare.bind fun m => (LeavesDebug.silent (.expect _ d.opened)).bind fun _ =>
    (LeavesDebug.modifyTable _).bind fun _ => (leavesDebug_compileParameters true d.parameters).bind fun _ =>
    LeavesDebug.variableCount.bind fun count => (LeavesDebug.modifySymbol m.id _).bind fun _ =>
    (LeavesDebug.silent (.expect _ d.closed)).bind fun _ =>
    (leavesDebug_noteMain m.name m.result m.entry count).bind fun _ => .pure

theorem MethodDecl.leavesDebug_compileTail (d : MethodDecl) (result : Ty) :
    LeavesDebug (d.compileTail result) := by
  have hfar : LeavesDebug takeFarCount := fun _ => ⟨rfl, rfl⟩
  have hend : Emits (fun _ => True) (emitAll (endCode result)) := .emitAll fun _ _ => trivial
  exact (LeavesDebug.silent (.expect _ d.bodyClosed)).bind fun _ => LeavesDebug.closeScope.bind fun _ =>
    hfar.bind fun _ => (LeavesDebug.silent (.faultIf _ _)).bind fun _ => .of_emits hend

/-- Before the statements of a method the numbers of its parameters and variables are known. -/
theorem MethodDecl.informs_compileHead (d : MethodDecl) (s : Compiler) :
    Ensures d.compileHead s fun m s' =>
      s'.debug = { s.debug with
        methods := s.debug.methods.push (m.info s'.table.current.variableCount) } ∧
      s'.code.dataSize = s.code.dataSize := by
  refine (d.leavesDebug_compileSignature s).bind fun m s₁ h₁ => ?_
  refine (LeavesDebug.forM VariableDecl.leavesDebug_compile s₁).bind fun _ s₂ h₂ => ?_
  let count := s₂.table.current.variableCount
  have hcount : Ensures Compiler.variableCount s₂ fun n s' => n = count ∧ s₂.SameDebug s' ∧ s'.table = s₂.table :=
    ⟨rfl, ⟨rfl, rfl⟩, rfl⟩
  refine hcount.bind fun n s₃ ⟨hn, h₃, htable₃⟩ => ?_
  have hfault := LeavesDebug.silent (.faultIf (maxLocals < n) .tooManyLocals) s₃
  refine Ensures.bind (P := fun _ s' => s₃.SameDebug s' ∧ s'.table = s₃.table)
    ⟨hfault, table_faultIf _ _ _⟩ fun _ s₄ ⟨h₄, htable₄⟩ => ?_
  have henter : Emits (fun _ => True) (emit .enter [m.parameterCount, n]) := .write trivial
  refine Ensures.bind (P := fun _ s' => s₄.SameDebug s' ∧ s'.table = s₄.table)
    ⟨LeavesDebug.of_emits henter s₄, rfl⟩ fun _ s₅ ⟨h₅, htable₅⟩ => ?_
  refine Ensures.bind (P := fun _ s' => s₅.SameDebug s' ∧ s'.table = s₅.table)
    ⟨⟨rfl, rfl⟩, rfl⟩ fun locals s₆ ⟨h₆, htable₆⟩ => ?_
  refine Ensures.bind (P := fun _ s' => s₆.SameDebug s' ∧ s'.table.current = s₆.table.current)
    ⟨⟨rfl, rfl⟩, rfl⟩ fun _ s₇ ⟨h₇, hcurrent₇⟩ => ?_
  refine Ensures.bind (P := fun _ s' => s' = { s₇ with
    debug := { s₇.debug with methods := s₇.debug.methods.push (m.info n) } }) rfl fun _ s₈ h₈ => ?_
  have hexpect := LeavesDebug.silent (.expect .leftBrace d.bodyOpened) s₈
  refine Ensures.bind (P := fun _ s' => s₈.SameDebug s' ∧ s'.table = s₈.table)
    ⟨hexpect, table_expect _ _ _⟩ fun _ s₉ ⟨h₉, htable₉⟩ => .pure ?_
  have hsame := (((((h₁.trans h₂).trans h₃).trans h₄).trans h₅).trans h₆).trans h₇
  have hcurrent : s₉.table.current = s₂.table.current := by
    rw [htable₉, h₈]
    change s₇.table.current = _
    rw [hcurrent₇, htable₆, htable₅, htable₄, htable₃]
  refine ⟨?_, ?_⟩
  · rw [h₉.debug, h₈, hcurrent, hn, hsame.debug]
  · rw [h₉.dataSize, h₈]
    exact hsame.dataSize

/-- A method is described by its symbol. -/
theorem MethodDecl.informs_compile (d : MethodDecl) (s : Compiler) :
    Ensures d.compile s fun _ s' => Informs [s.table.nextSymbol] s s' := by
  refine ((d.ensures_compileHead s).and (d.informs_compileHead s)).bind
    fun m s₁ ⟨⟨_, _, locals, hlocals, h₁⟩, hdebug, hsize⟩ => ?_
  have hbody := emits_compileStatements none m.result d.body s₁
  refine Ensures.bind (P := fun _ s₂ => s₁.table.Makes [] s₂.table ∧ s₁.SameDebug s₂)
    ⟨hbody.makes, hbody.sameDebug⟩ fun _ s₂ ⟨h₂, hsame₂⟩ => ?_
  have hinside : s.table.Opens (m.symbol locals) d.entry.inner s₂.table := by
    rw [← List.append_nil d.entry.inner]
    exact h₁.makes h₂
  refine ((d.ensures_compileTail m.result s₂).and (d.leavesDebug_compileTail m.result s₂)).mono
    fun _ s₃ ⟨h₃, hsame₃⟩ => ?_
  have hcount : s₁.table.current.variableCount = locals.size := by
    rw [h₁.inside.count fun _ => Entry.isVariable_of_mem_namings, ← Array.length_toList, hlocals,
      Entry.bound, List.length_map]
  have hinfo : (s₃.table.symbol s.table.nextSymbol).info = m.info locals.size := by
    rw [h₃, hinside.symbol_close]
    rfl
  have hsame := hsame₂.trans hsame₃
  refine ⟨?_, ?_, ?_, hsame.dataSize.trans hsize⟩
  · rw [hsame.debug, hdebug]
  · rw [hsame.debug, hdebug]
  · rw [hsame.debug, hdebug, hcount, Array.toList_push, List.map_singleton, hinfo]

/-- The symbols that the methods among the members of a program make. -/
def memberIds (next : SymbolId) (ms : List Member) : List SymbolId :=
  (Entry.number next (ms.flatMap Member.entries)).map Prod.fst

theorem Member.informs_compile (m : Member) (s : Compiler) :
    Ensures m.compile s fun _ s' => Informs (memberIds s.table.nextSymbol [m]) s s' := by
  cases m with
  | method d => exact d.informs_compile s
  | skipped more => exact (LeavesDebug.silent (.skip _ more) s).mono fun _ _ h => h.informs

/-- Methods are described by their symbols, one after the other. -/
theorem informs_compileMembers (ms : List Member) (s : Compiler) :
    Ensures (ms.forM Member.compile) s fun _ s' =>
      s.table.Makes (ms.flatMap Member.entries) s'.table ∧
        Informs (memberIds s.table.nextSymbol ms) s s' := by
  induction ms generalizing s with
  | nil => exact ⟨.refl _, SameDebug.informs ⟨rfl, rfl⟩⟩
  | cons m ms ih =>
      refine ((m.enters_compile s).and (m.informs_compile s)).bind fun _ s₁ ⟨hmakes₁, h₁⟩ => ?_
      refine (ih s₁).mono fun _ s₂ ⟨hmakes₂, h₂⟩ => ⟨hmakes₁.trans hmakes₂, ?_⟩
      have hids : memberIds s.table.nextSymbol (m :: ms) =
          memberIds s.table.nextSymbol [m] ++ memberIds s₁.table.nextSymbol ms := by
        rw [memberIds, List.flatMap_cons, Entry.number_append, List.map_append, memberIds, memberIds,
          List.flatMap_singleton, hmakes₁.next]
      rw [hids]
      refine h₁.trans h₂ fun id hid => hmakes₂.old id ?_
      obtain ⟨x, hx, rfl⟩ := List.mem_map.1 hid
      rw [List.flatMap_singleton] at hx
      exact (Entry.fst_lt_of_mem_number hx).trans_eq hmakes₁.next.symm

/-! ### Programs -/

/-- The number and the names of the variables of a program are those of its scope. -/
theorem noteGlobals_eq (s : Compiler) : ∃ log stray, (noteGlobals s).2 = { s with
    log
    stray
    code := { s.code with dataSize := s.table.current.variableCount }
    debug := { s.debug with globals := s.table.currentNames } } := by
  have hrest (c : Bool) (count : Nat) (s : Compiler) : ∃ log stray, ((do
      faultIf c .tooManyGlobals
      let declared ← symbols (← currentLocals)
      let globals := (declared.filter (·.kind = .variable)).map Symbol.name
      modify fun s => { s with
        code := { s.code with dataSize := count }, debug := { s.debug with globals } } : CompilerM Unit)
      s).2 = { s with
        log
        stray
        code := { s.code with dataSize := count }
        debug := { s.debug with globals := s.table.currentNames } } := by
    cases c <;> exact ⟨_, _, rfl⟩
  exact hrest _ _ (Compiler.variableCount s).2

/-- Before the first method the names of the program and of its variables are noted. -/
theorem Program.noted_compileHead (p : Program) : Ensures p.compileHead .initial fun _ s =>
    s.code.dataSize = s.table.current.variableCount ∧
      s.debug = { program := p.name.getD "", globals := s.table.currentNames } := by
  refine (LeavesDebug.silent .shift .initial).bind fun _ s₁ h₁ => ?_
  refine (LeavesDebug.silent (.expect _ p.announced) s₁).bind fun _ s₂ h₂ => ?_
  have hname : Ensures (expectName p.name) s₂ fun name s' => name = p.name.getD "" ∧ s₂.SameDebug s' :=
    ⟨fst_expectName _ _, LeavesDebug.silent (.expectName p.name) s₂⟩
  refine hname.bind fun name s₃ ⟨hname, h₃⟩ => ?_
  refine (LeavesDebug.declare .program name .void s₃).bind fun id s₄ h₄ => ?_
  refine Ensures.bind (P := fun _ s' => s' = { s₄ with debug := { s₄.debug with program := name } }) rfl
    fun _ s₅ h₅ => ?_
  refine (LeavesDebug.modifyTable SymbolTable.openScope s₅).bind fun _ s₆ h₆ => ?_
  refine (LeavesDebug.forM Declaration.leavesDebug_compile s₆).bind fun _ s₇ h₇ => ?_
  obtain ⟨log, stray, hnoted⟩ := noteGlobals_eq s₇
  refine Ensures.bind (P := fun _ s' => s' = _) hnoted fun _ s₈ h₈ => ?_
  have hexpect := LeavesDebug.silent (.expect .leftBrace p.opened) s₈
  refine Ensures.bind (P := fun _ s' => s₈.SameDebug s' ∧ s'.table = s₈.table)
    ⟨hexpect, table_expect _ _ _⟩ fun _ s₉ ⟨h₉, htable₉⟩ => .pure ?_
  have hsame := ((h₁.trans h₂).trans h₃).trans h₄
  have hdebug : s₇.debug = { program := p.name.getD "" } := by
    rw [(h₆.trans h₇).debug, h₅, hname, hsame.debug]
    rfl
  rw [h₉.dataSize, h₉.debug, htable₉, h₈]
  exact ⟨rfl, congrArg (fun d : DebugInfo => { d with globals := s₇.table.currentNames }) hdebug⟩

theorem Program.leavesDebug_compileTail (p : Program) (id : SymbolId) : LeavesDebug (p.compileTail id) := by
  have hget : LeavesDebug (MonadState.get : CompilerM Compiler) := fun _ => ⟨rfl, rfl⟩
  exact (LeavesDebug.silent (.expect _ p.closed)).bind fun _ => LeavesDebug.currentLocals.bind fun _ =>
    (LeavesDebug.modifySymbol id _).bind fun _ => LeavesDebug.closeScope.bind fun _ =>
    hget.bind fun _ => (LeavesDebug.silent (.faultIf _ _)).bind fun _ => .silent (.expect _ p.complete)

theorem Program.methodIds_eq (p : Program) : p.methodIds = memberIds
    (programId + 1 + Entry.total (p.declarations.flatMap Declaration.entries)) p.members := by
  rw [methodIds, p.filter_number_entries, memberIds]

/-- The global variables are among the declarations before the first method. -/
theorem Program.slotted_entries (p : Program) (id : SymbolId) :
    Naming.slotted (Entry.namings id p.entries) =
      Naming.slotted (Entry.namings id (p.declarations.flatMap Declaration.entries)) := by
  rw [Program.entries, Entry.namings_append]
  refine Naming.slotted_append fun n hn => ?_
  obtain ⟨x, hx, rfl⟩ := List.mem_map.1 hn
  obtain ⟨m, -, hm⟩ := List.mem_flatMap.1 (Entry.snd_mem_of_mem_number hx)
  rw [Member.kind_of_mem_entries hm]
  rfl

/-- The global variables are the first ones of their names. -/
theorem Program.Recorded.globals_eq {p : Program} {t : SymbolTable} (h : p.Recorded t) :
    t.globals = (Naming.slotted (Entry.namings (programId + 1) p.entries)).map Naming.id ∧
      t.globals.map (fun id => (t.symbol id).name) =
        (Naming.slotted (Entry.namings (programId + 1) p.entries)).map Naming.name := by
  have hnaming : ∀ n ∈ firstsBy Naming.name (Entry.namings (programId + 1) p.entries),
      decide ((t.symbol n.id).kind = .variable) = n.isVariable ∧ (t.symbol n.id).name = n.name := by
    intro n hn
    obtain ⟨x, hx, rfl⟩ := List.mem_map.1 (mem_of_mem_firstsBy hn)
    have hx := h.entries x hx
    exact ⟨by rw [hx.kind], hx.name⟩
  have hids : t.globals =
      (Naming.slotted (Entry.namings (programId + 1) p.entries)).map Naming.id := by
    rw [SymbolTable.globals, h.globals, Entry.bound, List.filter_map]
    exact congrArg (List.map Naming.id) (List.filter_congr fun n hn => (hnaming n hn).1)
  refine ⟨hids, ?_⟩
  rw [hids, List.map_map]
  exact List.map_congr_left fun n hn => (hnaming n (List.mem_filter.1 hn).1).2

/-- The debug information names what the program declares. -/
theorem Program.names_compile (p : Program) : Ensures p.compile .initial fun _ s =>
    s.debug.program = p.name.getD "" ∧
      s.debug.globals.toList = (Naming.slotted (Entry.namings (programId + 1) p.entries)).map Naming.name ∧
      s.debug.methods.toList = p.methodIds.map (fun id => (s.table.symbol id).info) ∧
      s.code.dataSize = (Naming.slotted (Entry.namings (programId + 1) p.entries)).length := by
  refine (p.opens_compileHead.and p.noted_compileHead).bind fun id s₁ ⟨⟨hid, hopen⟩, hsize, hdebug⟩ => ?_
  refine (informs_compileMembers p.members s₁).bind fun _ s₂ ⟨hmakes, h₂⟩ => ?_
  refine ((p.leavesDebug_compileTail id s₂).and (p.ensures_compileTail id s₂)).mono
    fun _ s₃ ⟨h₃, htable⟩ => ?_
  have hfills : s₁.table.Fills
      (Entry.namings (programId + 1) (p.declarations.flatMap Declaration.entries)) := hopen.inside
  have hnext : s₁.table.nextSymbol =
      programId + 1 + Entry.total (p.declarations.flatMap Declaration.entries) := hopen.next
  have hmethods : s₁.debug.methods.toList = [] := by rw [hdebug]
  rw [p.slotted_entries, ← hfills.names_slotted, hfills.length_slotted, h₃.debug, h₃.dataSize,
    h₂.program, h₂.globals, h₂.methods, h₂.dataSize, hmethods, List.nil_append, p.methodIds_eq, ← hnext]
  refine ⟨by rw [hdebug], by rw [hdebug], List.map_congr_left fun i hi => ?_, hsize⟩
  -- the symbol of the program alone is changed at the end
  obtain ⟨x, hx, rfl⟩ := List.mem_map.1 hi
  have hle := Entry.le_fst_of_mem_number hx
  rw [hnext] at hle
  have hne : x.1 ≠ id := by
    rw [hid]
    exact Nat.ne_of_gt ((Nat.lt_succ_self _).trans_le ((Nat.le_add_right _ _).trans hle))
  rw [htable, SymbolTable.symbol_closeScope, SymbolTable.Closed.symbol_modifySymbol hne]

/-- The debug information is what the symbol table says at the end, and there is a word of data for every
global variable. -/
theorem Program.debug_compile (p : Program) : Ensures p.compile .initial fun _ s =>
    p.Recorded s.table ∧ s.debug = s.table.debugInfo p ∧ s.code.dataSize = s.table.globals.length := by
  have hrecorded : Ensures p.compile .initial fun _ s => p.Recorded s.table :=
    p.records_compile.mono fun _ _ ⟨_, _, h, _⟩ => h
  refine (hrecorded.and p.names_compile).mono fun _ s ⟨h, hprogram, hglobals, hmethods, hsize⟩ => ?_
  obtain ⟨hids, hnames⟩ := h.globals_eq
  refine ⟨h, ?_, ?_⟩
  · rcases hd : s.debug with ⟨program, globals, methods⟩
    simp only [hd] at hglobals hprogram hmethods
    rw [SymbolTable.debugInfo, h.name, hnames, ← hglobals, ← hmethods, hprogram]
  · rw [hsize, hids, List.length_map]

end Tree

end MicroJava
