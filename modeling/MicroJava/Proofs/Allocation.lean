import Mathlib.Algebra.GroupWithZero.Nat
import MicroJava.Proofs.Classes
import MicroJava.Proofs.Literals

/-!
# What is declared without a fault

Without a fault every name of a declaration is new in its scope, so the number of variables of a scope
is that of the names in the tree: `Gains P Q n m s s'` is what is known of the states before and after
`n` variables and `m` other names were declared. From this follow the numbers of parameters and
variables of a method (`Tree.MethodDecl.relates_compileHead`) and of the variables of a program
(`Tree.Program.relates_compileHead`), and that they are within their limits.
-/

namespace MicroJava

/-! ### What is counted -/

namespace Tree

/-- The names of the variables that are declared together. -/
def VariableDecl.names (d : VariableDecl) : List (Option String) := d.first :: d.others

/-- The number of variables in several declarations. -/
def variableCount (ds : List VariableDecl) : Nat := (ds.map fun d => d.names.length).sum

/-- The number of variables of a method, parameters included. -/
def MethodDecl.variableCount (d : MethodDecl) : Nat :=
  d.parameters.length + Tree.variableCount d.locals

/-- The variables that a declaration declares. -/
def Declaration.globals? : Declaration → Option VariableDecl
  | .globals d => some d
  | _ => none

/-- The number of variables of a program. -/
def Program.variableCount (p : Program) : Nat :=
  Tree.variableCount (p.declarations.filterMap Declaration.globals?)

/-- The program declares a class of this name with so many fields. -/
def Program.HasClass (p : Program) (_ : TypeId) (name : String) (count : Nat) : Prop :=
  ∃ c : ClassDecl, .object c ∈ p.declarations ∧ c.name = some name ∧ count = Tree.variableCount c.fields

end Tree

theorem SymbolTable.symbols_closeScope (t : SymbolTable) : t.closeScope.symbols = t.symbols := by
  unfold closeScope
  split <;> rfl

theorem Emitter.dataSize_write (e : Emitter) (i : Item) : (e.write i).dataSize = e.dataSize := by
  have hway : ∀ (e : Emitter) (way : Int), (e.noteWay way).dataSize = e.dataSize := by
    intro e way
    unfold noteWay
    split <;> rfl
  cases i with
  | jump op l =>
      change (e.jump op l).dataSize = _
      unfold jump
      split
      · exact hway e _
      · rfl
  | place l =>
      change (e.place l).dataSize = _
      unfold place
      split
      · next sites _ =>
          have hfold : ∀ (sites : List Nat) (e' : Emitter),
              (sites.foldl (resolve e.pc) e').dataSize = e'.dataSize := by
            intro sites
            induction sites with
            | nil => exact fun _ => rfl
            | cons site sites ih => exact fun e' => (ih _).trans (hway e' _)
          exact hfold sites _
      · rfl
  | call address => exact hway e _
  | _ => rfl

namespace Compiler

variable {α β γ : Type} {P : Int → Prop} {Q : TypeId → String → Nat → Prop} {n m n' m' : Nat} {s s' s'' : Compiler}

theorem Step.keepsSlots {allowed : Item → Prop} (h : Step allowed s s') :
    s.table.KeepsSlots s'.table ∧ (s.table.Slotted P → s'.table.Slotted P) ∧
      (s.table.Classed Q → s'.table.Classed Q) ∧ s'.code.dataSize = s.code.dataSize := by
  cases h with
  | write _ => exact ⟨.refl _, id, id, Emitter.dataSize_write _ _⟩
  | addType => exact ⟨.of_symbols rfl, fun h => h.addType _, fun h => h.addType _, rfl⟩
  | _ => exact ⟨.refl _, id, id, rfl⟩

/-! ### Steps that relate states -/

/-- Unless there is a fault, `R` relates the states before and after the step and its value. -/
def Relates (x : CompilerM α) (R : Compiler → α → Compiler → Prop) : Prop :=
  ∀ s, s.Logs (x s).2 ∧ (¬ (x s).2.Faulty → R s (x s).1 (x s).2)

namespace Relates

variable {x : CompilerM α} {f : α → CompilerM β} {R : Compiler → α → Compiler → Prop}
  {R' : α → Compiler → β → Compiler → Prop}

theorem bind (hx : Relates x R) (hf : ∀ a, Relates (f a) (R' a)) :
    Relates (x >>= f) fun s b s'' => ∃ a s', R s a s' ∧ R' a s' b s'' := by
  intro s
  obtain ⟨hlogs, hr⟩ := hx s
  obtain ⟨hlogs', hr'⟩ := hf (x s).1 (x s).2
  exact ⟨hlogs.trans hlogs', fun hclean => ⟨_, _, hr (mt hlogs'.faulty hclean), hr' hclean⟩⟩

theorem mono {R' : Compiler → α → Compiler → Prop} (hx : Relates x R)
    (h : ∀ s a s', R s a s' → R' s a s') : Relates x R' :=
  fun s => ⟨(hx s).1, fun hclean => h _ _ _ ((hx s).2 hclean)⟩

theorem all {ι : Type} [Nonempty ι] {R : ι → Compiler → α → Compiler → Prop}
    (hx : ∀ i, Relates x (R i)) : Relates x fun s a s' => ∀ i, R i s a s' :=
  fun s => ⟨(hx (Classical.arbitrary ι) s).1, fun hclean i => (hx i s).2 hclean⟩

theorem pure {a : α} (h : ∀ s, R s a s) : Relates (Pure.pure a) R :=
  fun s => ⟨.refl s, fun _ => h s⟩

/-- A step that adds nothing to the log. -/
theorem of_log (hlog : ∀ s, (x s).2.log = s.log) (h : ∀ s, R s (x s).1 (x s).2) : Relates x R :=
  fun s => ⟨.of_eq (hlog s), fun _ => h s⟩

theorem of_emits {allowed : Item → Prop} (hx : Emits allowed x)
    (h : ∀ s, ¬ (x s).2.Faulty → R s (x s).1 (x s).2) : Relates x R :=
  fun s => ⟨(hx s).logs, h s⟩

theorem fault (m : Message) {R : Compiler → Unit → Compiler → Prop} : Relates (fault m) R :=
  of_emits (Emits.fault m : Emits (fun _ => False) _) fun s h => absurd (faulty_fault m s) h

theorem skip (m : Message) (more : Nat) {R : Compiler → Unit → Compiler → Prop} :
    Relates (skip m more) R :=
  of_emits (Emits.skip m more : Emits (fun _ => False) _) fun s h => absurd (faulty_skip m more s) h

theorem faultIf (c : Bool) (m : Message) : Relates (faultIf c m) fun s _ s' => c = false ∧ s' = s := by
  cases c with
  | false => exact pure fun _ => ⟨rfl, rfl⟩
  | true => exact fault m

/-- A step that only adds to the log. -/
theorem of_onlyLogs {allowed : Item → Prop} (hx : Emits allowed x) (h : OnlyLogs x) :
    Relates x fun s _ s' => ∃ log, s' = { s with log } :=
  of_emits hx fun s _ => h s

theorem expectName (name : Option String) :
    Relates (expectName name) fun s n s' => name = some n ∧ ∃ log, s' = { s with log } := by
  refine of_emits (Emits.expectName name : Emits (fun _ => False) _) fun s hclean => ?_
  cases name with
  | none => exact absurd (faulty_fault _ s) hclean
  | some n => exact ⟨rfl, _, rfl⟩

theorem emit (op : Opcode) (operands : List Int) : Relates (emit op operands) fun s _ s' =>
    s' = { s with code := s.code.write (.instruction op operands)
                  items := s.items.push (.instruction op operands) } :=
  of_log (fun _ => rfl) fun _ => rfl

/-- The innermost scope is looked at. -/
theorem scope : Relates scope fun s c s' => c = s.table.current ∧ ∃ stray, s' = { s with stray } :=
  of_log (fun _ => rfl) fun _ => ⟨rfl, _, rfl⟩

theorem variableCount : Relates variableCount fun s n s' =>
    n = s.table.current.variableCount ∧ ∃ stray, s' = { s with stray } :=
  of_log (fun _ => rfl) fun _ => ⟨rfl, _, rfl⟩

theorem currentLocals : Relates currentLocals fun s ids s' =>
    ids = s.table.current.locals ∧ ∃ stray, s' = { s with stray } :=
  of_log (fun _ => rfl) fun _ => ⟨rfl, _, rfl⟩

theorem openScope : Relates openScope fun s _ s' => s' = s.inScope :=
  of_log (fun _ => rfl) fun _ => rfl

theorem closeScope : Relates closeScope fun s _ s' =>
    ∃ stray, s' = { s with stray, table := s.table.closeScope } :=
  of_log (fun _ => rfl) fun _ => ⟨_, rfl⟩

theorem modifySymbol (id : SymbolId) (g : Symbol → Symbol) : Relates (modifySymbol id g)
    fun s _ s' => ∃ stray, s' = { s with stray, table := s.table.modifySymbol id g } :=
  of_log (fun _ => rfl) fun _ => ⟨_, rfl⟩

theorem setFields (type : Ty) (fields : Array SymbolId) : Relates (setFields type fields)
    fun s _ s' => ∃ stray, s' = { s with stray, table := s.table.setFields type fields } :=
  of_log (fun _ => rfl) fun _ => ⟨_, rfl⟩

/-- A name that is declared without a fault is new. -/
theorem declare (kind : SymbolKind) (name : String) (type : Ty) : Relates (declare kind name type)
    fun s id s' => s.table.current.declares name = false ∧ id = s.table.nextSymbol ∧
      ∃ stray, s' = { s with stray, table := s.table.declare kind name type } := by
  refine (scope.bind fun c => (faultIf (c.declares name) (.duplicateName name)).bind fun _ =>
    of_log (R := fun s id s' => id = s.table.nextSymbol ∧
      s' = { s with table := s.table.declare kind name type }) (fun _ => rfl) fun _ => ⟨rfl, rfl⟩).mono ?_
  rintro s id s' ⟨_, _, ⟨rfl, stray, rfl⟩, _, _, ⟨hnew, rfl⟩, rfl, rfl⟩
  exact ⟨hnew, rfl, stray, rfl⟩

end Relates

/-! ### Steps that allocate -/

/-- What is known of the states before and after `n` variables and `m` other names were declared. -/
structure Gains (P : Int → Prop) (Q : TypeId → String → Nat → Prop) (n m : Nat) (s s' : Compiler) : Prop where
  slots : s.table.KeepsSlots s'.table
  slotted : s.table.Slotted P → s'.table.Slotted P
  classed : s.table.Classed Q → s'.table.Classed Q
  outer : s'.table.outer = s.table.outer
  count : s'.table.current.variableCount = s.table.current.variableCount + n
  size : s'.table.current.locals.size = s.table.current.locals.size + n + m
  dataSize : s'.code.dataSize = s.code.dataSize

namespace Gains

theorem of_eq (htable : s'.table = s.table) (hsize : s'.code.dataSize = s.code.dataSize) :
    Gains P Q 0 0 s s' := by
  refine ⟨?_, ?_, ?_, ?_, ?_, ?_, hsize⟩ <;> rw [htable]
  exacts [.refl _, id, id, rfl, rfl]

/-- The first reference that led nowhere does not matter. -/
theorem of_stray {stray : Option Reference} (h : Gains P Q n m { s with stray } s') : Gains P Q n m s s' :=
  ⟨h.slots, h.slotted, h.classed, h.outer, h.count, h.size, h.dataSize⟩

theorem trans (h : Gains P Q n m s s') (h' : Gains P Q n' m' s' s'') :
    Gains P Q (n + n') (m + m') s s'' where
  slots := h.slots.trans h'.slots
  slotted := h'.slotted ∘ h.slotted
  classed := h'.classed ∘ h.classed
  outer := h'.outer.trans h.outer
  count := by rw [h'.count, h.count, Nat.add_assoc]
  size := by rw [h'.size, h.size]; omega
  dataSize := h'.dataSize.trans h.dataSize

theorem of_steps {allowed : Item → Prop} (h : Steps allowed s s') : Gains P Q 0 0 s s' := by
  induction h with
  | refl => exact .of_eq rfl rfl
  | tail _ h ih =>
      obtain ⟨hslots, hslotted, hclassed, hsize⟩ := Step.keepsSlots (P := P) (Q := Q) h
      have hextends := Steps.table_extends (Relation.ReflTransGen.single h)
      have hstep : Gains P Q 0 0 _ _ := ⟨hslots, hslotted, hclassed, hextends.outer, by rw [hextends.current]; rfl,
        by rw [hextends.current]; rfl, hsize⟩
      exact ih.trans hstep

end Gains

/-- A name that is new in its scope is declared as something else than a variable. -/
theorem Gains.declare_other (hzero : P 0) (kind : SymbolKind) (hkind : kind ≠ .variable) {name : String}
    (hnew : s.table.current.declares name = false) (type : Ty) (stray : Option Reference)
    (hclass : kind = .type → type.shape = .object →
      type.id < s.table.types.size ∧ Q type.id name (s.table.fields type).size) :
    Gains P Q 0 1 s { s with stray, table := s.table.declare kind name type } := by
  refine ⟨.declare _ _ _ _, fun h => h.declare hzero _ _ _, fun h => h.declare _ _ _ hclass, rfl, ?_, ?_,
    rfl⟩
  · simp [SymbolTable.declare, Scope.insert, hnew, hkind]
  · simp [SymbolTable.declare, Scope.insert, hnew]

/-- The step declares `n` variables and `m` other names. -/
def Allocates (P : Int → Prop) (Q : TypeId → String → Nat → Prop) (n m : Nat) (x : CompilerM α) : Prop :=
  Relates x fun s _ s' => Gains P Q n m s s'

namespace Allocates

variable {x : CompilerM α} {f : α → CompilerM β}

theorem bind (hx : Allocates P Q n m x) (hf : ∀ a, Allocates P Q n' m' (f a)) :
    Allocates P Q (n + n') (m + m') (x >>= f) :=
  (Relates.bind hx hf).mono fun _ _ _ ⟨_, _, h, h'⟩ => h.trans h'

/-- Nothing is declared so far. -/
theorem quietly (hx : Allocates P Q 0 0 x) (hf : ∀ a, Allocates P Q n m (f a)) :
    Allocates P Q n m (x >>= f) :=
  (Relates.bind hx hf).mono fun _ _ _ ⟨_, _, h, h'⟩ => by simpa using h.trans h'

/-- Nothing is declared from here on. -/
theorem finish (hx : Allocates P Q n m x) (hf : ∀ a, Allocates P Q 0 0 (f a)) :
    Allocates P Q n m (x >>= f) :=
  (Relates.bind hx hf).mono fun _ _ _ ⟨_, _, h, h'⟩ => h.trans h'

theorem of_emits {allowed : Item → Prop} (hx : Emits allowed x) : Allocates P Q 0 0 x :=
  Relates.of_emits hx fun s _ => Gains.of_steps (hx s)

theorem silent (hx : Emits (fun _ => False) x) : Allocates P Q 0 0 x := of_emits hx

theorem pure {a : α} : Allocates P Q 0 0 (Pure.pure a) := silent .pure

theorem of_eq (hx : Allocates P Q n m x) (hn : n = n') (hm : m = m') : Allocates P Q n' m' x :=
  hn ▸ hm ▸ hx

/-- Several things are declared one after the other. -/
theorem forM {g : γ → CompilerM PUnit} {l : List γ} {k j : γ → Nat}
    (h : ∀ c ∈ l, Allocates P Q (k c) (j c) (g c)) :
    Allocates P Q (l.map k).sum (l.map j).sum (l.forM g) := by
  induction l with
  | nil => exact pure
  | cons c l ih =>
      exact (h c List.mem_cons_self).bind fun _ => ih fun d hd => h d (List.mem_cons_of_mem c hd)

variable (hzero : P 0)
include hzero

theorem declare_variable (name : String) (type : Ty) :
    Allocates P Q 1 0 (declare .variable name type) := by
  refine (Relates.declare .variable name type).mono ?_
  rintro s _ _ ⟨hnew, rfl, stray, rfl⟩
  refine ⟨.declare _ _ _ _, fun h => h.declare hzero _ _ _, fun h => h.declare _ _ _ nofun, rfl, ?_, ?_,
    rfl⟩
  · simp [SymbolTable.declare, Scope.insert, hnew]
  · simp [SymbolTable.declare, Scope.insert, hnew]

theorem declare_other (kind : SymbolKind) (hkind : kind ≠ .variable ∧ kind ≠ .type) (name : String)
    (type : Ty) : Allocates P Q 0 1 (declare kind name type) := by
  refine (Relates.declare kind name type).mono ?_
  rintro s _ _ ⟨hnew, rfl, stray, rfl⟩
  exact .declare_other hzero kind hkind.1 hnew type stray fun h => absurd h hkind.2

end Allocates

theorem Gains.modifySymbol {g : Symbol → Symbol}
    (hkind : ∀ c : Symbol, (g c).kind = c.kind ∧ (g c).name = c.name ∧ (g c).type = c.type)
    (hslot : ∀ c : Symbol, (g c).level = c.level ∧ (g c).address = c.address)
    (hvalue : ∀ c : Symbol, P c.value → P (g c).value) (id : SymbolId) (stray : Option Reference) :
    Gains P Q 0 0 s { s with stray, table := s.table.modifySymbol id g } :=
  have hslots := SymbolTable.KeepsSlots.modifySymbol (hkind (s.table.symbol id)).1 fun _ => hslot _
  ⟨hslots, fun h => h.modifySymbol hslots (hvalue _ (h.values id)), fun h => h.modifySymbol id hkind, rfl,
    rfl, rfl, rfl⟩

/-- A symbol is completed that keeps its address. -/
theorem Allocates.modifySymbol {g : Symbol → Symbol}
    (hkind : ∀ c : Symbol, (g c).kind = c.kind ∧ (g c).name = c.name ∧ (g c).type = c.type)
    (hslot : ∀ c : Symbol, (g c).level = c.level ∧ (g c).address = c.address)
    (hvalue : ∀ c : Symbol, P c.value → P (g c).value) (id : SymbolId) :
    Allocates P Q 0 0 (modifySymbol id g) := by
  refine (Relates.modifySymbol id g).mono ?_
  rintro s _ _ ⟨stray, rfl⟩
  exact .modifySymbol hkind hslot hvalue id stray

/-- What was declared in a scope of its own is forgotten when the scope is closed. -/
theorem Gains.closeScope (h : Gains P Q n m s.inScope s') (htable : s''.table = s'.table.closeScope)
    (hsize : s''.code.dataSize = s'.code.dataSize) : Gains P Q 0 0 s s'' := by
  have houter : s'.table.outer = s.table.current :: s.table.outer := h.outer
  have hclose : s''.table =
      { s'.table with current := s.table.current, outer := s.table.outer } := by
    rw [htable, SymbolTable.closeScope, houter]
  refine ⟨?_, fun hs => ?_, fun hc => ?_, ?_, ?_, ?_, hsize.trans h.dataSize⟩
  · have hopen : s.table.KeepsSlots s.inScope.table := .of_symbols rfl
    rw [hclose]
    exact (hopen.trans h.slots).trans (.of_symbols rfl)
  · rw [htable]
    exact (h.slotted hs.openScope).closeScope
  · rw [htable]
    exact (h.classed hc.openScope).closeScope
  all_goals rw [hclose]
  exacts [rfl, rfl]

end Compiler

namespace Tree

open Compiler

variable {P : Int → Prop} {Q : TypeId → String → Nat → Prop} (hzero : P 0)
include hzero

theorem allocates_declareVariable (type : Ty) (name : Option String) :
    Allocates P Q 1 0 (declareVariable type name) :=
  (Allocates.silent (.expectName name)).quietly fun name =>
    (Allocates.declare_variable hzero name type).finish fun _ => .pure

theorem VariableDecl.allocates_compile (d : VariableDecl) : Allocates P Q d.names.length 0 d.compile := by
  have hothers (type : Ty) : Allocates P Q d.others.length 0 (d.others.forM fun name => do
      shift
      declareVariable type name) :=
    (Allocates.forM (k := fun _ => 1) (j := fun _ => 0) fun name _ => (Allocates.silent .shift).quietly fun _ =>
      allocates_declareVariable hzero type name).of_eq
      (by rw [List.map_const', List.sum_replicate_nat, Nat.mul_one])
      (by rw [List.map_const', List.sum_replicate_nat, Nat.mul_zero])
  exact ((Allocates.silent (TypeName.emits_compile d.type)).quietly fun type =>
    (allocates_declareVariable hzero type d.first).bind fun _ =>
      (hothers type).finish fun _ => .silent (.expect _ d.ended)).of_eq (Nat.add_comm _ _) rfl

theorem allocates_variables (ds : List VariableDecl) :
    Allocates P Q (variableCount ds) 0 (ds.forM VariableDecl.compile) :=
  (Allocates.forM (j := fun _ => 0) fun d _ => d.allocates_compile hzero).of_eq rfl
    (by rw [List.map_const', List.sum_replicate_nat, Nat.mul_zero])

theorem allocates_compileParameters (first : Bool) (ps : List Parameter) :
    Allocates P Q ps.length 0 (compileParameters first ps) := by
  induction ps generalizing first with
  | nil => exact .pure
  | cons p ps ih =>
      exact ((Allocates.silent (.shiftUnless first)).quietly fun _ =>
        (Allocates.silent (TypeName.emits_compile p.type)).quietly fun type =>
          (allocates_declareVariable hzero type p.name).bind fun _ => ih false).of_eq
        (Nat.add_comm _ _) rfl

/-- The fields of a class are numbered in order, and there are not too many of them. -/
theorem relates_compileFields (fields : List VariableDecl) : Relates (compileFields fields)
    fun s ids s' => (∀ Q, Gains P Q 0 0 s s') ∧ ids.size = variableCount fields ∧
      ids.size ≤ maxFields ∧ (s.table.Slotted P → s'.table.Numbers ids) := by
  refine (Relates.openScope.bind fun _ => Relates.bind
    (Relates.all fun Q => allocates_variables (Q := Q) hzero fields) fun _ =>
    Relates.variableCount.bind fun count => (Relates.faultIf _ _).bind fun _ =>
    Relates.currentLocals.bind fun ids => Relates.closeScope.bind fun _ =>
    Relates.pure (R := fun s a s' => a = ids ∧ s' = s) fun _ => ⟨rfl, rfl⟩).mono ?_
  rintro s _ _ ⟨_, _, rfl, _, s₁, hall, _, _, ⟨rfl, _, rfl⟩, _, _, ⟨hsmall, rfl⟩, _, _, ⟨rfl, _, rfl⟩, _,
    _, ⟨_, rfl⟩, rfl, rfl⟩
  have h := hall fun _ _ _ => True
  have hcount : s₁.table.current.variableCount = variableCount fields := h.count.trans (Nat.zero_add _)
  have hsize : s₁.table.current.locals.size = variableCount fields := by
    rw [h.size]
    exact Nat.zero_add _
  refine ⟨fun Q => (hall Q).closeScope rfl rfl, hsize, ?_, fun hs => ?_⟩
  · rw [hsize, ← hcount]
    simpa using hsmall
  · have hs₁ := (h.slotted hs.openScope).scopes.1.locals (hsize.trans hcount.symm)
    exact hs₁.mono (.of_symbols (SymbolTable.symbols_closeScope _))

/-- A class has the fields that it declares. -/
theorem ClassDecl.allocates_compile {d : ClassDecl}
    (hd : ∀ k name, d.name = some name → Q k name (variableCount d.fields)) :
    Allocates P Q 0 1 d.compile := by
  have hnew : Relates newObject fun s type s' =>
      type = s.table.nextObject ∧ s' = { s with table := s.table.addType type } :=
    Relates.of_log (fun _ => rfl) fun s => ⟨rfl, rfl⟩
  refine (Relates.bind (Allocates.silent (P := P) (Q := Q) .shift) fun _ =>
    (Relates.expectName d.name).bind fun name => hnew.bind fun type =>
    (Relates.declare .type name type).bind fun _ =>
    Relates.bind (Relates.all fun Q => Allocates.silent (P := P) (Q := Q) (.expect _ d.opened)) fun _ =>
    (relates_compileFields hzero d.fields).bind fun ids => (Relates.setFields type ids).bind fun _ =>
    Allocates.silent (P := P) (Q := Q) (.expect _ d.closed)).mono ?_
  rintro s _ s' ⟨_, s₁, h₁, name, _, ⟨hname, log, rfl⟩, _, _, ⟨rfl, rfl⟩, _, _, ⟨hfresh, rfl, stray, rfl⟩,
    _, s₅, h₅, ids, s₆, ⟨h₆, hcount, hsmall, hnumbers⟩, _, _, ⟨stray', rfl⟩, h'⟩
  -- until the fields are known, only the name of the new class is
  let k := s₁.table.types.size
  let Q' : TypeId → String → Nat → Prop := fun i n count => if i = k then n = name else Q i n count
  have hold {i : TypeId} (hi : i ≠ k) (n : String) (count : Nat) : Q' i n count ↔ Q i n count := by
    simp [Q', hi]
  have hobject : Gains P Q' 0 0 { s₁ with log } { s₁ with log, table := s₁.table.addType (.object k) } :=
    ⟨.of_symbols rfl, fun h => h.addType _, fun h => h.addType _, rfl, rfl, rfl, rfl⟩
  have hdeclare := hobject.trans (Gains.declare_other hzero .type nofun hfresh (.object k) stray
    fun _ _ => ⟨by simp [SymbolTable.addType, Ty.id, k], by simp [Q', Ty.id]⟩)
  have hopened := hdeclare.trans (h₅ Q')
  have hfields := hopened.trans (h₆ Q')
  have hset : Gains P Q 0 1 { s₁ with log }
      { s₆ with stray := stray', table := s₆.table.setFields (.object k) ids } := by
    refine ⟨hfields.slots.trans (.of_symbols rfl), fun hs => ?_, fun hc => ?_, hfields.outer, hfields.count,
      hfields.size, hfields.dataSize⟩
    · exact (hfields.slotted hs).setFields (.object k) (hnumbers (hopened.slotted hs)) hsmall
    · have hnames := hfields.classed (hc.mono fun i hi n count => (hold (Nat.ne_of_lt hi) n count).2)
      refine hnames.setFields (.object k) ids (fun i n count hi => (hold hi n count).1) fun n count hq => ?_
      obtain rfl : n = name := by simpa [Q', Ty.id] using hq
      exact hcount ▸ hd k n hname
  have hlog : Gains P Q 0 0 s₁ { s₁ with log } := .of_eq rfl rfl
  exact ((h₁.trans hlog).trans hset).trans h'

omit hzero in
theorem ConstantValue.allocates_take (type : Ty) (id : SymbolId) (shape : TyShape) {value : Int}
    (hvalue : P value) : Allocates P Q 0 0 (ConstantValue.compile.take type id shape value) :=
  (Allocates.silent (.inspect _)).quietly fun _ => (Allocates.silent (.faultIf _ _)).quietly fun _ =>
    (Allocates.silent .shift).quietly fun _ =>
    Allocates.modifySymbol (g := ({ · with value })) (fun _ => ⟨rfl, rfl, rfl⟩) (fun _ => ⟨rfl, rfl⟩)
      (fun _ _ => hvalue) id

omit hzero in
theorem ConstantValue.allocates_compile {v : ConstantValue} (hv : v.Literals P) (type : Ty)
    (id : SymbolId) : Allocates P Q 0 0 (v.compile type id) := by
  cases v with
  | number n => exact ConstantValue.allocates_take type id _ hv
  | char n => exact ConstantValue.allocates_take type id _ hv
  | missing => exact .fault _

theorem ConstantDecl.allocates_compile {d : ConstantDecl} (hd : d.value.Literals P) :
    Allocates P Q 0 1 d.compile :=
  (Allocates.silent .shift).quietly fun _ =>
    (Allocates.silent (TypeName.emits_compile d.type)).quietly fun type =>
    (Allocates.silent (.expectName d.name)).quietly fun name =>
    (Allocates.declare_other hzero .constant ⟨nofun, nofun⟩ name type).finish fun id =>
    (Allocates.silent (.expect _ d.assigned)).quietly fun _ =>
    (ConstantValue.allocates_compile hd type id).finish fun _ => .silent (.expect _ d.ended)

theorem Declaration.allocates_compile {d : Declaration} (hd : d.Literals P)
    (hQ : ∀ c, d = .object c → ∀ k name, c.name = some name → Q k name (variableCount c.fields)) :
    ∃ m, Allocates P Q ((d.globals?.map fun d => d.names.length).getD 0) m d.compile := by
  cases d with
  | constant d => exact ⟨1, d.allocates_compile hzero hd⟩
  | globals d => exact ⟨0, d.allocates_compile hzero⟩
  | object d => exact ⟨1, ClassDecl.allocates_compile hzero (hQ d rfl)⟩
  | skipped more => exact ⟨0, .skip _ more⟩

theorem allocates_declarations {ds : List Declaration} (hds : ∀ d ∈ ds, d.Literals P)
    (hQ : ∀ c, .object c ∈ ds → ∀ k name, c.name = some name → Q k name (variableCount c.fields)) :
    ∃ m, Allocates P Q (variableCount (ds.filterMap Declaration.globals?)) m
      (ds.forM Declaration.compile) := by
  induction ds with
  | nil => exact ⟨0, .pure⟩
  | cons d ds ih =>
      obtain ⟨m, h⟩ := Declaration.allocates_compile hzero (hds d List.mem_cons_self)
        fun c hc => hQ c (hc ▸ List.mem_cons_self)
      obtain ⟨m', h'⟩ := ih (fun d hd => hds d (List.mem_cons_of_mem _ hd))
        fun c hc => hQ c (List.mem_cons_of_mem _ hc)
      refine ⟨m + m', (h.bind fun _ => h').of_eq ?_ rfl⟩
      cases hglobals : d.globals? with
      | none => simp [hglobals]
      | some d' => simp [hglobals, variableCount]

/-- What is known before the first method: the universe is around the scope of the program. -/
theorem Program.relates_compileHead (p : Program) (hp : ∀ d ∈ p.declarations, d.Literals P) :
    Relates p.compileHead fun s _ s' => (s.table.Slotted P → s'.table.Slotted P) ∧
      (s.table.Classed p.HasClass → s'.table.Classed p.HasClass) ∧
      (∃ c : Scope, s'.table.outer = c :: s.table.outer ∧
        c.variableCount = s.table.current.variableCount) ∧
      s'.table.current.variableCount = p.variableCount ∧ p.variableCount ≤ maxGlobals ∧
      s'.code.dataSize = p.variableCount := by
  obtain ⟨m, hdeclarations⟩ := allocates_declarations (Q := p.HasClass) hzero hp fun c hc k name hname =>
    ⟨c, hc, hname, rfl⟩
  have hglobals : Relates noteGlobals fun s _ s' => s'.table = s.table ∧
      s.table.current.variableCount ≤ maxGlobals ∧
      s'.code.dataSize = s.table.current.variableCount := by
    refine (Relates.variableCount.bind fun count => (Relates.faultIf _ _).bind fun _ =>
      Relates.currentLocals.bind fun ids =>
      Relates.bind (R := fun s _ s' => ∃ stray, s' = { s with stray })
        (.of_log (fun _ => rfl) fun _ => ⟨_, rfl⟩) fun declared =>
      Relates.of_log (R := fun s _ s' => s'.table = s.table ∧ s'.code.dataSize = count)
        (fun _ => rfl) fun _ => ⟨rfl, rfl⟩).mono ?_
    rintro s _ _ ⟨_, _, ⟨rfl, _, rfl⟩, _, _, ⟨hsmall, rfl⟩, _, _, ⟨rfl, _, rfl⟩, _, _, ⟨_, rfl⟩, htable, hsize⟩
    exact ⟨htable, by simpa using hsmall, hsize⟩
  refine (Relates.bind (Allocates.silent (P := P) (Q := p.HasClass) .shift) fun _ =>
    Relates.bind (Allocates.silent (P := P) (Q := p.HasClass) (.expect _ p.announced)) fun _ =>
    Relates.bind (Allocates.silent (P := P) (Q := p.HasClass) (.expectName p.name)) fun name =>
    Relates.bind (Allocates.declare_other (Q := p.HasClass) hzero .program ⟨nofun, nofun⟩ name .void) fun id =>
    Relates.bind (R := fun s _ s' => s'.table = s.table ∧ s'.code = s.code)
      (.of_log (fun _ => rfl) fun _ => ⟨rfl, rfl⟩) fun _ => Relates.openScope.bind fun _ =>
    Relates.bind hdeclarations fun _ => hglobals.bind fun _ =>
    Relates.bind (Allocates.silent (P := P) (Q := p.HasClass) (.expect _ p.opened)) fun _ =>
    Relates.pure (R := fun s _ s' => s' = s) fun _ => rfl).mono ?_
  rintro s _ s' ⟨_, s₁, h₁, _, s₂, h₂, _, s₃, h₃, _, s₄, h₄, _, s₅, ⟨htable₅, hcode₅⟩, _, _, rfl, _, s₇, h₇,
    _, s₈, ⟨htable₈, hsmall, hsize₈⟩, _, s₉, h₉, rfl⟩
  have h := ((h₁.trans h₂).trans h₃).trans h₄
  have hcount : s₇.table.current.variableCount = p.variableCount := h₇.count.trans (Nat.zero_add _)
  refine ⟨fun hs => ?_, fun hc => ?_, ⟨s₅.table.current, ?_, ?_⟩, ?_, hcount ▸ hsmall, ?_⟩
  · have hs₅ : s₅.table.Slotted P := htable₅ ▸ h.slotted hs
    refine h₉.slotted ?_
    rw [htable₈]
    exact h₇.slotted hs₅.openScope
  · have hc₅ : s₅.table.Classed p.HasClass := htable₅ ▸ h.classed hc
    refine h₉.classed ?_
    rw [htable₈]
    exact h₇.classed hc₅.openScope
  · have houter : s₇.table.outer = s₅.table.current :: s₅.table.outer := h₇.outer
    rw [h₉.outer, htable₈, houter, htable₅, h.outer]
  · rw [htable₅, h.count]
    rfl
  · rw [h₉.count, htable₈, hcount]
    rfl
  · rw [h₉.dataSize, hsize₈, hcount]

/-! ### Methods -/

omit hzero in
theorem emits_compileResult {allowed : Item → Prop} (d : Option TypeName) :
    Emits allowed (compileResult d) := by
  cases d with
  | none => exact Emits.shift.bind fun _ => .pure
  | some d =>
      exact d.emits_compile.bind fun type => (Emits.inspect _).bind fun _ =>
        (Emits.faultIf _ _).bind fun _ => .pure

omit hzero in
theorem allocates_noteMain (name : String) (result : Ty) (entry parameterCount : Nat) :
    Allocates P Q 0 0 (noteMain name result entry parameterCount) := by
  unfold noteMain
  split
  · have hentry : Allocates P Q 0 0 (modifyCode ({ · with entry := some entry })) :=
      Relates.of_log (fun _ => rfl) fun _ => .of_eq rfl rfl
    exact hentry.quietly fun _ => (Allocates.silent (.faultIf _ _)).quietly fun _ => .silent (.faultIf _ _)
  · exact .pure

/-- The name of a method is no variable, whatever address it gets. -/
theorem MethodDecl.allocates_declare (d : MethodDecl) : Allocates P Q 0 1 d.declare := by
  have hname (name : String) (result : Ty) : Allocates P Q 0 1 (do
      let id ← Compiler.declare .method name result
      let entry ← pc
      Compiler.modifySymbol id ({ · with address := entry })
      return ({ id, name, result, entry } : Signature)) := by
    refine (((Relates.declare .method name result).bind fun id => Relates.bind (R := fun s _ s' => s' = s)
      (.of_log (fun _ => rfl) fun _ => rfl) fun entry => (Relates.modifySymbol id _).bind fun _ =>
      Relates.pure (R := fun s _ s' => s' = s) fun _ => rfl).mono) ?_
    rintro s _ _ ⟨_, _, ⟨hnew, rfl, _, rfl⟩, entry, _, rfl, _, _, ⟨_, rfl⟩, rfl⟩
    have h := Gains.declare_other (Q := Q) hzero .method nofun hnew result none nofun
    have hmethod : ((s.table.declare .method name result).symbol s.table.nextSymbol).kind ≠ .variable := by
      rw [SymbolTable.Closed.symbol_declare_self]
      exact SymbolKind.noConfusion
    have hslots := SymbolTable.KeepsSlots.modifySymbol
      (f := fun c => { c with address := (entry : Int) }) rfl fun hkind => absurd hkind hmethod
    exact ⟨h.slots.trans hslots, fun hs => (h.slotted hs).modifySymbol hslots ((h.slotted hs).values _),
      fun hc => (h.classed hc).modifySymbol _ fun _ => ⟨rfl, rfl, rfl⟩, h.outer, h.count, h.size, h.dataSize⟩
  exact (Allocates.silent (emits_compileResult d.type)).quietly fun result =>
    (Allocates.silent (.expectName d.name)).quietly fun name => hname name result

theorem MethodDecl.relates_compileSignature (d : MethodDecl) : Relates d.compileSignature fun s m t =>
    m.parameterCount = d.parameters.length ∧
      ∃ s₁, Gains P Q 0 1 s s₁ ∧ Gains P Q d.parameters.length 0 s₁.inScope t := by
  refine (Relates.bind (d.allocates_declare (Q := Q) hzero) fun m =>
    Relates.bind (Allocates.silent (P := P) (Q := Q) (.expect _ d.opened)) fun _ => Relates.openScope.bind fun _ =>
    Relates.bind (allocates_compileParameters (Q := Q) hzero true d.parameters) fun _ =>
    Relates.variableCount.bind fun count =>
    Relates.bind (Allocates.modifySymbol (P := P) (Q := Q) (g := ({ · with parameterCount := count }))
      (fun _ => ⟨rfl, rfl, rfl⟩) (fun _ => ⟨rfl, rfl⟩) (fun _ => id) m.id) fun _ =>
    Relates.bind (Allocates.silent (P := P) (Q := Q) (.expect _ d.closed)) fun _ =>
    Relates.bind (allocates_noteMain (P := P) (Q := Q) m.name m.result m.entry count) fun _ =>
    Relates.pure (R := fun s m' s' => m' = { m with parameterCount := count } ∧ s' = s)
      fun _ => ⟨rfl, rfl⟩).mono ?_
  rintro s _ t ⟨m, s₁, h₁, _, s₂, h₂, _, _, rfl, _, s₄, h₄, _, _, ⟨rfl, _, rfl⟩, _, s₆, h₆, _, s₇, h₇, _,
    s₈, h₈, rfl, rfl⟩
  refine ⟨h₄.count.trans (Nat.zero_add _), s₂, h₁.trans h₂, ?_⟩
  exact ((h₄.trans h₆.of_stray).trans h₇).trans h₈

/-- What is known before the statements of a method. -/
theorem MethodDecl.relates_compileHead (d : MethodDecl) : Relates d.compileHead fun s m t =>
    m.parameterCount = d.parameters.length ∧ d.variableCount ≤ maxLocals ∧
      t.items.back? = some (.instruction .enter [d.parameters.length, d.variableCount]) ∧
      ∃ s₁, Gains P Q 0 1 s s₁ ∧ Gains P Q d.variableCount 0 s₁.inScope t := by
  refine ((d.relates_compileSignature (Q := Q) hzero).bind fun m =>
    Relates.bind (allocates_variables (Q := Q) hzero d.locals) fun _ => Relates.variableCount.bind fun count =>
    (Relates.faultIf _ _).bind fun _ => (Relates.emit .enter _).bind fun _ =>
    Relates.currentLocals.bind fun ids =>
    Relates.bind (R := fun s _ s' => Gains P Q 0 0 s s' ∧ s'.items = s.items)
      ((Relates.modifySymbol m.id ({ · with locals := ids })).mono ?_) fun _ =>
    Relates.bind (R := fun s _ s' => Gains P Q 0 0 s s' ∧ s'.items = s.items)
      (.of_log (fun _ => rfl) fun _ => ⟨.of_eq rfl rfl, rfl⟩) fun _ =>
    Relates.bind (R := fun s _ s' => Gains P Q 0 0 s s' ∧ s'.items = s.items)
      ((Relates.of_onlyLogs (Emits.expect _ d.bodyOpened : Emits (fun _ => False) _) (.expect _ _)).mono ?_)
      fun _ => Relates.pure (R := fun s m' s' => m' = m ∧ s' = s) fun _ => ⟨rfl, rfl⟩).mono ?_
  · rintro s _ _ ⟨stray, rfl⟩
    exact ⟨.modifySymbol (g := ({ · with locals := ids })) (fun _ => ⟨rfl, rfl, rfl⟩) (fun _ => ⟨rfl, rfl⟩)
      (fun _ => id) m.id stray, rfl⟩
  · rintro s _ _ ⟨log, rfl⟩
    exact ⟨.of_eq rfl rfl, rfl⟩
  · rintro s m t ⟨_, s₁, ⟨hm, s₀, h₀, h₁⟩, _, s₂, h₂, _, _, ⟨rfl, stray, rfl⟩, _, _, ⟨hsmall, rfl⟩, _, _, rfl, _,
      _, ⟨rfl, _, rfl⟩, _, s₅, ⟨h₅, hi₅⟩, _, s₆, ⟨h₆, hi₆⟩, _, s₇, ⟨h₇, hi₇⟩, rfl, rfl⟩
    have hvariables : Gains P Q d.variableCount 0 s₀.inScope s₂ := h₁.trans h₂
    have hcount : s₂.table.current.variableCount = d.variableCount :=
      hvariables.count.trans (Nat.zero_add _)
    refine ⟨hm, ?_, ?_, s₀, h₀, ?_⟩
    · rw [← hcount]
      simpa using hsmall
    · rw [hi₇, hi₆, hi₅, ← hm, ← hcount]
      simp
    · have hwrite : Gains P Q 0 0 s₂ { s₂ with
          stray
          code := s₂.code.write (.instruction .enter [m.parameterCount, s₂.table.current.variableCount])
          items := s₂.items.push
            (.instruction .enter [m.parameterCount, s₂.table.current.variableCount]) } :=
        .of_eq rfl (Emitter.dataSize_write _ _)
      exact (((hvariables.trans hwrite).trans h₅.of_stray).trans h₆).trans h₇

/-- A method declares its name in the scope around it. -/
theorem MethodDecl.allocates_compile (d : MethodDecl) : Allocates P Q 0 1 d.compile := by
  have hend (os : List Operation) : Relates (emitAll os) fun s _ s' =>
      s'.table = s.table ∧ s'.code.dataSize = s.code.dataSize := by
    have hemits : Emits (fun _ => True) (emitAll os) := .emitAll fun _ _ => trivial
    refine .of_emits hemits fun s _ => ⟨?_, (Gains.of_steps (P := P) (Q := Q) (hemits s)).dataSize⟩
    obtain ⟨⟨code, items, hs⟩, -⟩ := ensures_emitAll os (s := s)
    rw [hs]
  have htail (result : Ty) : Relates (d.compileTail result) fun s _ s' =>
      s'.table = s.table.closeScope ∧ s'.code.dataSize = s.code.dataSize := by
    refine ((Relates.of_onlyLogs (Emits.expect _ d.bodyClosed : Emits (fun _ => False) _)
      (.expect _ _)).bind fun _ => Relates.closeScope.bind fun _ =>
      Relates.bind (R := fun s _ s' => s'.table = s.table ∧ s'.code.dataSize = s.code.dataSize)
        (.of_log (fun _ => rfl) fun _ => ⟨rfl, rfl⟩) fun far => (Relates.faultIf _ _).bind fun _ =>
      hend _).mono ?_
    rintro s _ s' ⟨_, _, ⟨_, rfl⟩, _, _, ⟨_, rfl⟩, _, s₃, ⟨htable₃, hsize₃⟩, _, _, ⟨-, rfl⟩, htable, hsize⟩
    exact ⟨htable.trans htable₃, hsize.trans hsize₃⟩
  refine ((d.relates_compileHead (Q := Q) hzero).bind fun m => Relates.bind (Allocates.of_emits (P := P) (Q := Q)
    (emits_compileStatements none m.result d.body)) fun _ => htail m.result).mono ?_
  rintro s _ s' ⟨m, t, ⟨-, -, -, s₁, h₁, h⟩, _, t', h', htable, hsize⟩
  exact h₁.trans ((h.trans h').closeScope htable hsize)

theorem allocates_members (ms : List Member) : ∃ m, Allocates P Q 0 m (ms.forM Member.compile) := by
  induction ms with
  | nil => exact ⟨0, .pure⟩
  | cons member ms ih =>
      obtain ⟨m, h⟩ := ih
      cases member with
      | method d => exact ⟨1 + m, (d.allocates_compile hzero).bind fun _ => h⟩
      | skipped more => exact ⟨0 + m, Allocates.bind (n := 0) (m := 0) (.skip _ more) fun _ => h⟩

/-- What is known of the state before a method of a program. -/
structure Program.Ready (P : Int → Prop) (p : Program) (s : Compiler) : Prop where
  slotted : s.table.Slotted P
  classed : s.table.Classed p.HasClass
  current : s.table.current.variableCount = p.variableCount
  outer : ∃ c : Scope, s.table.outer = [c] ∧ c.variableCount = 0
  dataSize : s.code.dataSize = p.variableCount
  small : p.variableCount ≤ maxGlobals

omit hzero in
theorem Program.Ready.gains {p : Program} {s s' : Compiler} {m : Nat} (h : p.Ready P s)
    (hg : Gains P p.HasClass 0 m s s') : p.Ready P s' where
  slotted := hg.slotted h.slotted
  classed := hg.classed h.classed
  current := hg.count.trans h.current
  outer := hg.outer ▸ h.outer
  dataSize := hg.dataSize.trans h.dataSize
  small := h.small

/-- Without a fault so far everything is ready for the next method. -/
theorem Program.ready_after (p : Program) (hp : ∀ d ∈ p.declarations, d.Literals P) (n : Nat)
    (hclean : ¬ (p.after n).Faulty) : p.Ready P (p.after n) := by
  obtain ⟨m, hmembers⟩ := allocates_members (Q := p.HasClass) hzero (p.members.take n)
  obtain ⟨-, h⟩ := ((p.relates_compileHead hzero hp).bind fun _ => hmembers) .initial
  obtain ⟨_, s, ⟨hslotted, hclassed, ⟨c, houter, hc⟩, hcount, hsmall, hsize⟩, hg⟩ := h hclean
  have hready : p.Ready P s :=
    ⟨hslotted (SymbolTable.Slotted.predeclared hzero), hclassed .predeclared, hcount, ⟨c, houter, hc⟩,
      hsize, hsmall⟩
  exact hready.gains hg

/-- Without a fault so far the statements of a method are compiled in a table that has room for all its
variables and knows the classes of the program. -/
theorem MethodDecl.inside_compileHead {p : Program} {s : Compiler} (h : p.Ready P s) (d : MethodDecl)
    (hclean : ¬ (d.compileHead s).2.Faulty) : (d.compileHead s).2.table.Slotted P ∧
      (d.compileHead s).2.table.Classed p.HasClass ∧
      (d.compileHead s).2.table.Inside d.variableCount p.variableCount := by
  obtain ⟨-, -, -, s₁, h₁, h₂⟩ := (d.relates_compileHead (Q := p.HasClass) hzero s).2 hclean
  obtain ⟨c, houter, hc⟩ := h.outer
  refine ⟨h₂.slotted (h₁.slotted h.slotted).openScope, h₂.classed (h₁.classed h.classed).openScope,
    h₂.count.trans (Nat.zero_add _), s₁.table.current, c, ?_, ?_, hc⟩
  · have houter₂ : (d.compileHead s).2.table.outer = s₁.table.current :: s₁.table.outer := h₂.outer
    rw [houter₂, h₁.outer, houter]
  · exact h₁.count.trans h.current

/-- The number of variables of a program is that of its image. -/
theorem Program.dataSize_compile (p : Program) (hp : ∀ d ∈ p.declarations, d.Literals P)
    (hclean : ¬ (p.compile .initial).2.Faulty) :
    (p.compile .initial).2.code.dataSize = p.variableCount ∧ p.variableCount ≤ maxGlobals := by
  obtain ⟨m, hmembers⟩ := allocates_members (Q := p.HasClass) hzero p.members
  have htail (id : SymbolId) : Relates (p.compileTail id) fun s _ s' =>
      s'.code.dataSize = s.code.dataSize := by
    refine ((Relates.of_onlyLogs (Emits.expect _ p.closed : Emits (fun _ => False) _)
      (.expect _ _)).bind fun _ => Relates.currentLocals.bind fun ids =>
      (Relates.modifySymbol id _).bind fun _ => Relates.closeScope.bind fun _ =>
      Relates.bind (R := fun s _ s' => s' = s) (.of_log (fun _ => rfl) fun _ => rfl) fun _ =>
      (Relates.faultIf _ _).bind fun _ => Relates.of_onlyLogs
        (Emits.expect _ p.complete : Emits (fun _ => False) _) (.expect _ _)).mono ?_
    rintro s _ _ ⟨_, _, ⟨_, rfl⟩, _, _, ⟨_, _, rfl⟩, _, _, ⟨_, rfl⟩, _, _, ⟨_, rfl⟩, _, _, rfl, _, _,
      ⟨-, rfl⟩, _, rfl⟩
    rfl
  obtain ⟨-, h⟩ := ((p.relates_compileHead hzero hp).bind fun id =>
    Relates.bind hmembers fun _ => htail id) .initial
  obtain ⟨_, s, ⟨-, -, -, -, hsmall, hsize⟩, _, s', hg, hend⟩ := h hclean
  exact ⟨hend.trans (hg.dataSize.trans hsize), hsmall⟩

end Tree

end MicroJava
