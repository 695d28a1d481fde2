import MicroJava.Proofs.ExpressionRuns

/-!
# Statements store into one place

An assignment, an increment or decrement and `read` have one meaning, whatever is stored and wherever:
the place is located first, then the value is found, and then it is put there. Their code does the same
and leaves the stack as it was (`Tree.Statement.stores_compile`). Whether a local variable is stepped by one
instruction or loaded, added to and stored does not matter.
-/

namespace MicroJava

variable {ι : Type}

/-! ### What statements mean -/

namespace Tree

/-- What an assignment operator makes of the old value and another one. -/
def AssignOp.apply (P : Processor ι) : AssignOp → Word → Word → Effect ι Word
  | plain, _, b => pure b
  | plus, a, b => pure (a + b)
  | minus, a, b => pure (a - b)
  | times, a, b => pure (a * b)
  | slash, a, b => P.quotient a b
  | percent, a, b => P.remainder a b

/-- The value that is stored at the place of a designator. Only a plain assignment does not look at the
old one. -/
def Action.stored (P : Processor ι) (t : SymbolTable) (p : Place) : Action → Effect ι Word
  | .assign .plain value => value.eval P t
  | .assign op value => do
    let a ← p.fetch
    let b ← value.eval P t
    op.apply P a b
  | .increment => do return (← p.fetch) + 1
  | .decrement => do return (← p.fetch) - 1
  | .call .. | .missing => throw .undefined

/-- Whether something is stored: there is an assignment, an increment or a decrement. -/
def Action.stores : Action → Bool
  | .assign .. | .increment | .decrement => true
  | .call .. | .missing => false

/-- The expression whose value is assigned. -/
def Action.value? : Action → Option Expr
  | .assign _ value => some value
  | _ => none

/-- The designator whose place a statement stores at. -/
def Statement.target? : Statement → Option Designator
  | .action d a _ => if a.stores then some d else none
  | .read _ d _ _ => some d
  | _ => none

/-- The expression whose value a statement assigns. -/
def Statement.value? : Statement → Option Expr
  | .action _ a _ => a.value?
  | _ => none

/-- The value that a statement stores at the place of its designator. -/
def Statement.stored (P : Processor ι) (t : SymbolTable) (p : Place) : Statement → Effect ι Word
  | .action _ a _ => a.stored P t p
  | .read _ d _ _ => P.input ((d.place t).type = .char)
  | _ => throw .undefined

/-- The place of the designator is located, then the value is found and stored there. -/
def Statement.update (P : Processor ι) (t : SymbolTable) (d : Designator) (s : Statement) :
    Effect ι Unit := do
  let p ← d.locate P t
  let v ← s.stored P t p
  p.put v

end Tree

/-! ### What the code does -/

variable {P : Processor ι}

namespace Tree

open Compiler

variable {t : SymbolTable} {x : Operand} {p : Place}

theorem AssignOp.does_opcode {op : AssignOp} {o : Opcode} (h : op.opcode? = some o) (a b : Word) :
    P.Does [.instruction o []] [b, a] (op.apply P a b) fun v => [v] :=
  .single rfl fun ws => by cases op <;> cases h <;> rfl

/-- The code of what happens to a designator puts the value at its place. -/
theorem Action.does_code (ht : t.Closed) (hx : x.Denotes p) {a : Action} (hv : a.Valid t x)
    (hstores : a.stores = true) (hsimple : ∀ e ∈ a.value?, e.Simple t) :
    P.Does (a.code t x) p.words (a.stored P t p >>= p.put) fun _ => [] := by
  cases a with
  | assign op value =>
      have hvalue := value.does_code ht (P := P) (fun _ => .inl) hv.1 (hsimple value rfl)
      cases ho : op.opcode? with
      | none =>
          obtain rfl : op = .plain := by cases op <;> first | rfl | cases ho
          rw [Action.code, Action.stored]
          exact (hvalue.above p.words).bind fun v => Operand.does_storing hx hv.2 v
      | some o =>
          have hstored : (Action.assign op value).stored P t p = p.fetch >>= fun a =>
              value.eval P t >>= fun b => op.apply P a b := by cases op <;> first | rfl | cases ho
          simp only [Action.code, ho]
          rw [hstored, bind_assoc, List.append_assoc, List.append_assoc]
          refine (Operand.does_preparing hx).bind fun a => ?_
          rw [bind_assoc]
          exact (hvalue.above (a :: p.words)).bind fun b =>
            ((AssignOp.does_opcode ho a b).above p.words).bind fun v => Operand.does_storing hx hv.2 v
  | increment =>
      have hone : BitVec.ofInt 32 1 = 1 := rfl
      have hstep := Operand.does_stepping (P := P) hx hv 1
      rw [hone] at hstep
      simpa only [Action.code, Action.stored, bind_assoc, pure_bind] using hstep
  | decrement =>
      have hminus (v : Word) : v + BitVec.ofInt 32 (-1) = v - 1 := by
        rw [BitVec.sub_eq_add_neg]
        rfl
      have hstep := Operand.does_stepping (P := P) hx hv (-1)
      simp only [hminus] at hstep
      simpa only [Action.code, Action.stored, bind_assoc, pure_bind] using hstep
  | call _ _ | missing => cases hstores

variable {K : SymbolId → Prop} {A : Prop} {d : Designator} {st : Statement}

/-- The code of a statement that stores does what the statement means and leaves the stack alone. -/
theorem Statement.does_plain (ht : t.Closed) (hK : ∀ id, K id → P.Knows t id) (hst : st.target? = some d)
    (hv : st.Valid t) (hd : d.Uses t K A) (hsimple : ∀ e ∈ st.value?, e.Simple t) :
    P.Does (st.plain t) [] (st.update P t d) fun _ => [] := by
  cases st with
  | action d' a ended =>
      rw [Statement.Valid] at hv
      rw [Statement.target?] at hst
      split at hst
      · next hstores =>
          obtain rfl := Option.some.inj hst
          have hload : (d'.place t).loadCode?.isSome := by
            cases a with
            | assign _ _ => exact Operand.isSome_loadCode?_of_store hv.2.2
            | increment | decrement => exact Operand.isSome_loadCode?_of_store hv.2
            | call _ _ | missing => cases hstores
          rw [Statement.plain, Statement.update]
          exact (d'.does_code ht hK hv.1 hd).bind_of (d'.yields_locate P t hv.1) fun p hp =>
            Action.does_code ht (hp hload) hv.2 hstores hsimple
      · cases hst
  | read opened d' closed ended =>
      obtain rfl : d' = d := Option.some.inj hst
      rw [Statement.Valid] at hv
      obtain ⟨hd', hstore, hread⟩ := hv
      rw [Statement.plain, Statement.update, List.append_assoc]
      exact (d'.does_code ht hK hd' hd).bind_of (d'.yields_locate P t hd') fun p hp =>
        Operand.does_reading (hp (Operand.isSome_loadCode?_of_store hstore)) hread hstore
  | _ => cases hst

theorem AssignOp.looks_apply (P : Processor ι) (op : AssignOp) (a b : Word) :
    Effect.Looks (op.apply P a b) := by
  cases op with
  | plain | plus | minus | times => exact .pure _
  | slash => exact .quotient P a b
  | percent => exact .remainder P a b

theorem Action.looks_stored (P : Processor ι) {a : Action} (hstores : a.stores = true)
    (hsimple : ∀ e ∈ a.value?, e.Simple t) (p : Place) : Effect.Looks (a.stored P t p) := by
  cases a with
  | assign op value =>
      have hvalue := value.looks_eval P (hsimple value rfl)
      cases op with
      | plain => exact hvalue
      | _ => exact (Effect.Looks.fetch p).bind fun _ => hvalue.bind fun _ => AssignOp.looks_apply P _ _ _
  | increment | decrement => exact (Effect.Looks.fetch p).bind fun _ => .pure _
  | call _ _ | missing => cases hstores

/-- Finding the value changes no cell, although it may take something from the input. -/
theorem Statement.keeps_stored (P : Processor ι) (hst : st.target? = some d)
    (hsimple : ∀ e ∈ st.value?, e.Simple t) {p : Place} {m m' : Memory ι} {v : Word}
    (h : st.stored P t p m = .ok (v, m')) : m'.cells = m.cells ∧ m'.length = m.length := by
  cases st with
  | action d a ended =>
      rw [Statement.target?] at hst
      split at hst
      · next hstores =>
          obtain rfl := (a.looks_stored P hstores hsimple p).eq_of_ok h
          exact ⟨rfl, rfl⟩
      · cases hst
  | read opened d closed ended => exact P.keeps_input h
  | _ => cases h

/-- What was stored is in one cell, and nothing else has changed since its place was located. -/
theorem Statement.receives_update (P : Processor ι) (hst : st.target? = some d)
    (hsimple : ∀ e ∈ st.value?, e.Simple t) {m m' : Memory ι} (h : st.update P t d m = .ok ((), m')) :
    ∃ c m₁ v m₂, d.locate P t m = .ok (.cell c, m₁) ∧ st.stored P t (.cell c) m₁ = .ok (v, m₂) ∧
      m₁.Receives c v m' ∧ m'.world = m₂.world := by
  obtain ⟨p, m₁, hp, h⟩ := Effect.exists_of_bind h
  obtain ⟨v, m₂, hv, h⟩ := Effect.exists_of_bind h
  cases p with
  | constant w => cases h
  | cell c =>
      obtain ⟨hcells, hlength⟩ := st.keeps_stored P hst hsimple hv
      obtain rfl := Cell.eq_set_of_put h
      have hset := m₂.receives_set c v
      have hothers (c' : Cell) (hc' : c' ≠ c) : (m₂.set c v).cells c' = m₁.cells c' :=
        (hset.others c' hc').trans (congrFun hcells c')
      exact ⟨c, m₁, v, m₂, hp, hv, ⟨hset.self, hothers, hset.length.trans hlength⟩, rfl⟩

/-! ### Runs -/

theorem Statement.emits_update {l : Option Label} {result : Ty} (hst : st.target? = some d) :
    ∃ rest : CompilerM Unit, st.compile l result = (Compiler.write .statement >>= fun _ => rest) ∧
      Emits Item.IsStraight rest := by
  cases st with
  | action d' a ended =>
      refine ⟨_, by rw [Statement.compile], d'.emits_compile.bind fun x => ?_⟩
      exact (a.emits_compile x).bind fun _ => .expect _ _
  | read opened d' closed ended =>
      refine ⟨_, by rw [Statement.compile], Emits.shift.bind fun _ => (Emits.expect _ _).bind fun _ => ?_⟩
      exact d'.emits_compile.bind fun x => (Emits.requireAssignable x).bind fun _ =>
        (emits_readValue x.type).bind fun _ => (Emits.assign x _).bind fun _ =>
        (Emits.expect _ _).bind fun _ => .expect _ _
  | _ => cases hst

/-- A statement that stores writes its mark and then its plain code. -/
theorem Statement.makes_update (ht : t.Closed) (l : Option Label) (result : Ty)
    (hst : st.target? = some d) :
    Makes t (st.compile l result) fun _ _ is =>
      is = .statement :: st.plain t ∧ st.Valid t ∧ ∀ i ∈ st.plain t, i.IsStraight := by
  intro s hs
  obtain ⟨hs', hlogs, hmakes⟩ := st.makes_plain ht l result s hs
  refine ⟨hs', hlogs, fun hclean => ?_⟩
  obtain ⟨is, hw, hplain, hvalid⟩ := hmakes hclean
  obtain ⟨rest, hrest, hemits⟩ := st.emits_update hst
  obtain ⟨js, hw', hstraight⟩ := (hemits (Compiler.write .statement s).2).exists_writes
  have hmark : s.Writes [.statement] (Compiler.write .statement s).2 := ⟨Array.toList_push, rfl⟩
  rw [hrest] at hw
  obtain rfl := hw.unique (hmark.append hw')
  have hjs : js = st.plain t := by
    rw [← hplain, List.filter_append, filter_isPlain_of_isStraight hstraight]
    rfl
  rw [hrest, ← hjs]
  exact ⟨_, hw, rfl, hvalid, hstraight⟩

theorem Statement.literals_of_target {Q : Int → Prop} (hst : st.target? = some d) (h : ∀ n, Q n) :
    st.Literals Q := by
  cases st with
  | action d a ended =>
      rw [Statement.Literals]
      exact ⟨d.literals_of_forall h, a.literals_of_forall h⟩
  | read opened d closed ended =>
      rw [Statement.Literals]
      exact d.literals_of_forall h
  | _ => cases hst

/-- The code from `start` to `behind` is that of a statement that stores at the place of `d`. It does what
the statement means and leaves the stack as it was: the place is located once, then the value is found, and
of all cells only the one at this place has another word than when it was located. Locating the place
changes nothing unless a declared method is called or something is allocated there. Whether a local
variable is added to by one instruction or by several ones makes no difference. -/
structure Statement.Stores (P : Processor ι) (t : SymbolTable) (d : Designator) (st : Statement)
    (code : List Instruction) (n start behind : Nat) : Prop where
  run : ∀ m ws, P.run code n ⟨start, ws, m⟩ =
    (st.update P t d m).map fun r => ⟨behind, ws, r.2⟩
  frame : ∀ m m', st.update P t d m = .ok ((), m') → ∃ c m₁ v m₂,
    d.locate P t m = .ok (.cell c, m₁) ∧ st.stored P t (.cell c) m₁ = .ok (v, m₂) ∧
    m₁.Receives c v m' ∧ m'.world = m₂.world
  still : d.Uses t SymbolTable.IsPredeclared False → ∀ m p m₁, d.locate P t m = .ok (p, m₁) → m₁ = m
  short : ∀ type slot k, P.execAll [.instruction .inc [slot, k]] =
    P.execAll (Operand.adding ⟨.localVar slot, type⟩ k)

/-- Whatever a statement stores and wherever, its code does it, in whatever state the compilation ends,
unless the way of a call is too far. -/
theorem Statement.stores_compile {s u : Compiler} (hs : s.InBody) (l : Option Label) (result : Ty)
    (hst : st.target? = some d) (hclean : ¬ (st.compile l result s).2.Faulty)
    (hsimple : ∀ e ∈ st.value?, e.Simple s.table) (hu : u.code.Assembles u.items.toList)
    (hafter : (st.compile l result s).2.items.toList <+: u.items.toList)
    (hnear : ∀ a t, Item.Leads u.items.toList a t → s.offset ≤ a →
      a < (st.compile l result s).2.offset → Emitter.isFar (t - a) = false) :
    ∃ code n, Instruction.decode u.code.code.toList = .ok code ∧
      ∀ P : Processor ι, d.Uses s.table (P.Knows s.table) True →
        st.Stores P s.table d code.toList n s.offset (st.compile l result s).2.offset := by
  have hlogs := (st.emits_compile l result s).logs
  obtain ⟨localCount, dataSize, ht⟩ := hs.limited (mt hlogs.faulty hclean)
  obtain ⟨-, -, hcode⟩ := st.makes_update ht.closed l result hst s (.refl _)
  obtain ⟨_, hw, rfl, hvalid, hstraight⟩ := hcode hclean
  have hstands : Item.Stands u.items.toList s.offset (st.plain s.table) := (hw.stands hafter).tail
  have hend : (st.compile l result s).2.offset = s.offset + Item.codeSize (st.plain s.table) := by
    rw [hw.offset, Item.codeSize_cons]
    exact congrArg (s.offset + ·) (Nat.zero_add _)
  have hcalls : ∀ b k, (b, .call k) ∈ Item.located s.offset (st.plain s.table) →
      Emitter.isFar (k - b) = false := by
    intro b k hb
    obtain ⟨hlow, hhigh⟩ := Item.bounds_of_mem_located hb
    have hsize : Item.size (.call k) = 3 := rfl
    exact hnear b k (.call (hstands.mem_located hb)) hlow (by omega)
  refine ⟨_, (st.plain s.table).length, hu.decode_eq, fun P hd => ⟨fun m ws => ?_, fun m m' =>
    st.receives_update P hst hsimple, fun h m p m₁ => (d.looks_locate P h).eq_of_ok,
    Operand.execAll_inc P⟩⟩
  have hrun := hstands.run_decoded P u.code.leadsTo ht hstraight
    (st.inRange_plain ht.ranged hvalid (st.literals_of_target hst fun _ => trivial)) hcalls ws m
  have hdoes := congrFun (st.does_plain ht.closed (P := P) (fun _ => id) hst hvalid hd hsimple ws) m
  change P.execAll (st.plain s.table) ws m = st.update P s.table d m >>= _ at hdoes
  rw [hrun, hdoes, hend]
  cases st.update P s.table d m <;> rfl

/-- The ways that a statement writes are near enough if none that is too far was counted. -/
theorem Statement.near_compile {s : Compiler} (hs : s.Sound) (l : Option Label)
    (hl : ∀ k ∈ l.toList, k < s.code.labels.size) {result : Ty} (hresult : result.In s.table)
    (st : Statement) (hfar : (st.compile l result s).2.code.farCount = 0) :
    ∀ a t, Item.Leads (st.compile l result s).2.items.toList a t → s.offset ≤ a →
      Emitter.isFar (t - a) = false := by
  intro a t h ha
  have hsince := st.closes_compile l result s hs hl hresult
  exact hsince.near s.code.pc hs.assembles.near_pc hfar a t (hs.assembles.pc_eq.trans_le ha) h

/-- The designator `a[next(i)]`. -/
def Designator.ledger : Designator :=
  let argument : Expr := .term (.factor (.designator (.name (some "i"))))
  .element (.name (some "a")) (.term (.factor (.call (.name (some "next")) [argument] true))) true

/-- The statement `a[next(i)] += c.x;`. -/
def Statement.ledger : Statement :=
  let value : Expr := .term (.factor (.designator (.field (.name (some "c")) (some "x"))))
  .action .ledger (.assign .plus value) true

/-- Its code adds 3 to the element with the index 3, and the method is called once. -/
theorem Statement.stores_compile_ledger : ∃ code n m,
    Instruction.decode (Statement.ledger.compile none .void .inLedger).2.code.code.toList = .ok code ∧
      Processor.ledger.run code.toList n ⟨Compiler.inLedger.offset, [], .ledger⟩ =
        .ok ⟨(Statement.ledger.compile none .void .inLedger).2.offset, [], m⟩ ∧
      m.cells (.word 200 3) = 10 ∧ m.cells (.globalVar 2) = 1 := by
  -- what is known of the fixed statement is computed; the theorem says the same of its code
  obtain ⟨hclean, hfar, hcall, hcells⟩ : ¬ (Statement.ledger.compile none .void .inLedger).2.Faulty ∧
      (Statement.ledger.compile none .void .inLedger).2.code.farCount = 0 ∧
      (((Designator.name (some "next")).place Compiler.inLedger.table).location = .method 16 ∧
        (Compiler.inLedger.table.symbol 16).parameters.size = 1) ∧
      ((Statement.ledger.update Processor.ledger Compiler.inLedger.table .ledger .ledger).toOption.map
        fun r => (r.2.cells (.word 200 3), r.2.cells (.globalVar 2))) = some (10, 1) := by
    decide +kernel
  have hsimple : ∀ e ∈ Statement.ledger.value?, e.Simple Compiler.inLedger.table := by
    simp [Statement.ledger, Statement.value?, Action.value?, Expr.Simple, Expr.Uses, Term.Uses, Factor.Uses,
      Designator.Uses]
  have huses : Designator.ledger.Uses Compiler.inLedger.table
      (Processor.ledger.Knows Compiler.inLedger.table) True := by
    simp only [Designator.ledger, Designator.Uses, Expr.Uses, Term.Uses, Factor.Uses, UsesOfArguments,
      true_and, and_true]
    intro id hid
    obtain rfl := Location.method.inj (hcall.1.symm.trans hid)
    exact .inr hcall.2.symm
  have hsound := Compiler.sound_inLedger
  have hnear := Statement.ledger.near_compile hsound none (by simp) hsound.table.void_in hfar
  have hassembles := (Statement.ledger.closes_compile none .void _ hsound (by simp)
    hsound.table.void_in).sound.assembles
  obtain ⟨code, n, hcode, hruns⟩ := Statement.stores_compile (d := .ledger) Compiler.inBody_inLedger
    none .void rfl hclean hsimple hassembles List.prefix_rfl fun a t h hlow _ => hnear a t h hlow
  have hrun := (hruns Processor.ledger huses).run .ledger []
  cases hupdate : Statement.ledger.update Processor.ledger Compiler.inLedger.table .ledger .ledger with
  | error _ =>
      rw [hupdate] at hcells
      cases hcells
  | ok r =>
      rw [hupdate] at hrun hcells
      obtain ⟨hword, hcalls⟩ := Prod.mk.inj (Option.some.inj hcells)
      exact ⟨code, n, r.2, hcode, hrun, hword, hcalls⟩

end Tree

end MicroJava
