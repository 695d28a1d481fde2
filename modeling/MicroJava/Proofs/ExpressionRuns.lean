import MicroJava.Proofs.OperandRuns

/-!
# Expressions compute their values

The code of a factor, a product or a sum does what its evaluation does and leaves the value on the stack
(`Tree.Expr.does_code`). Operands whose value is known are loaded late, and a minus before one is folded
into it; the value is the same then (`Tree.Expr.eval_of_constant`). The words that a designator needs are
on the stack from when it is located until its value is fetched (`Tree.Designator.does_code`).

Run from the bytes of the code, an expression that calls no declared method pushes its value and changes
nothing else (`Tree.Expr.computes_compile`).
-/

namespace MicroJava

variable {ι : Type} {P : Processor ι}

namespace Tree

variable {t : SymbolTable}

theorem AddOp.does_opcode (op : AddOp) (a b : Word) :
    P.Does [.instruction op.opcode []] [b, a] (pure (op.apply a b)) fun v => [v] :=
  .single rfl fun ws => by cases op <;> rfl

theorem MulOp.does_opcode (op : MulOp) (a b : Word) :
    P.Does [.instruction op.opcode []] [b, a] (op.apply P a b) fun v => [v] :=
  .single rfl fun ws => by cases op <;> rfl

/-- Only a name can stand for a method. -/
theorem Designator.code_of_method {id : SymbolId} : (d : Designator) →
    (d.place t).location = .method id → d.code t = []
  | .name _, _ => by rw [Designator.code]
  | .field d n, h => by
      rw [Designator.place] at h
      cases hx : t.fieldOperand? (d.place t).type n with
      | none =>
          rw [hx] at h
          cases h
      | some x =>
          obtain ⟨_, _, -, -, rfl⟩ := SymbolTable.exists_of_fieldOperand? hx
          rw [hx] at h
          cases h
  | .element _ _ _, h => by
      rw [Designator.place] at h
      cases h

/-- The place of a name needs nothing on the stack. -/
theorem Designator.toPlace_name (t : SymbolTable) (n : Option String) :
    (((Designator.name n).place t).toPlace []).words = [] ∧
      (((Designator.name n).place t).loadCode?.isSome →
        ((Designator.name n).place t).Denotes (((Designator.name n).place t).toPlace [])) := by
  rw [Designator.place]
  cases hx : t.operand? n with
  | none => exact ⟨rfl, fun _ => rfl⟩
  | some x =>
      obtain ⟨_, id, -, -, hid⟩ := SymbolTable.exists_of_operand? hx
      rw [Option.getD_some]
      unfold Operand.ofSymbol? at hid
      split at hid <;> cases hid
      · exact ⟨rfl, fun _ => rfl⟩
      · split <;> exact ⟨rfl, fun _ => rfl⟩
      · exact ⟨rfl, fun h => by cases h⟩

/-- What is located is the place of the designator. -/
theorem Designator.yields_locate (P : Processor ι) (t : SymbolTable) : (d : Designator) → d.Valid t →
    (d.locate P t).Yields fun p => (d.place t).loadCode?.isSome → (d.place t).Denotes p
  | .name n, _ => by
      rw [Designator.locate]
      exact .pure (toPlace_name t n).2
  | .field d n, hd => by
      rw [Designator.Valid] at hd
      obtain ⟨x, hx⟩ := Option.isSome_iff_exists.1 hd.2.2
      obtain ⟨_, _, -, -, rfl⟩ := SymbolTable.exists_of_fieldOperand? hx
      rw [Designator.locate, Designator.place, hx]
      exact .after fun p => .after fun r => .pure fun _ => ⟨r, rfl⟩
  | .element d index closed, _ => by
      rw [Designator.locate, Designator.place]
      exact .after fun p => .after fun r => .after fun i => .pure fun _ => ⟨r, i, rfl⟩

theorem yields_evalArguments (P : Processor ι) (t : SymbolTable) (es : List Expr) :
    (evalArguments P t es).Yields fun vs => vs.length = es.length := by
  induction es with
  | nil =>
      rw [evalArguments]
      exact .pure rfl
  | cons e es ih =>
      rw [evalArguments]
      exact .after fun v => ih.bind fun vs h => .pure (congrArg (· + 1) h)

/-! ### Constants -/

mutual

/-- The value of what is a constant is known. -/
theorem Expr.eval_of_constant {n : Int} : (e : Expr) → e.Valid t → (e.operand t).location = .constant n →
    e.eval P t = pure (BitVec.ofInt 32 n)
  | .term x, hv, h => by
      rw [Expr.Valid] at hv
      rw [Expr.operand] at h
      rw [Expr.eval]
      exact x.eval_of_constant hv h
  | .neg x, hv, h => by
      rw [Expr.Valid] at hv
      rw [Expr.operand] at h
      split at h
      · next k hk =>
          obtain rfl := Location.constant.inj h
          rw [Expr.eval, x.eval_of_constant hv hk, pure_bind, ofInt_wrapWord, BitVec.ofInt_neg]
      · cases h
  | .add _ _ _, _, h => by
      rw [Expr.operand] at h
      cases h

theorem Term.eval_of_constant {n : Int} : (x : Term) → x.Valid t → (x.operand t).location = .constant n →
    x.eval P t = pure (BitVec.ofInt 32 n)
  | .factor f, hv, h => by
      rw [Term.Valid] at hv
      rw [Term.operand] at h
      rw [Term.eval]
      exact f.eval_of_constant hv h
  | .mul _ _ _, _, h | .power _ _, _, h => by
      rw [Term.operand] at h
      cases h

theorem Factor.eval_of_constant {n : Int} : (f : Factor) → f.Valid t →
    (f.operand t).location = .constant n → f.eval P t = pure (BitVec.ofInt 32 n)
  | .designator (.name m), _, h => by
      rw [Factor.operand] at h
      have hplace : ((Designator.name m).place t).toPlace [] = .constant (BitVec.ofInt 32 n) := by
        rw [Operand.toPlace, h]
      rw [Factor.eval, Designator.locate, pure_bind, hplace]
      rfl
  | .designator (.field d m), hv, h => by
      rw [Factor.Valid, Designator.Valid] at hv
      obtain ⟨x, hx⟩ := Option.isSome_iff_exists.1 hv.1.2.2
      obtain ⟨_, _, -, -, rfl⟩ := SymbolTable.exists_of_fieldOperand? hx
      rw [Factor.operand, Designator.place, hx] at h
      cases h
  | .designator (.element _ _ _), _, h => by
      rw [Factor.operand, Designator.place] at h
      cases h
  | .number k, _, h | .char k, _, h => by
      rw [Factor.operand] at h
      obtain rfl := Location.constant.inj h
      rw [Factor.eval]
  | .group e _, hv, h => by
      rw [Factor.Valid] at hv
      rw [Factor.operand] at h
      rw [Factor.eval]
      exact e.eval_of_constant hv h
  | .call _ _ _, _, h | .newObject _, _, h | .newArray _ _ _, _, h | .missing, _, h => by
      rw [Factor.operand] at h
      cases h

end

/-! ### The code of expressions -/

variable {K : SymbolId → Prop} {A : Prop}

mutual

/-- The code of a sum computes its value. -/
theorem Expr.does_code (ht : t.Closed) (hK : ∀ id, K id → P.Knows t id) : (e : Expr) → e.Valid t →
    e.Uses t K A → P.Does (e.code t) [] (e.eval P t) fun v => [v]
  | .term x, hv, hu => by
      rw [Expr.Valid] at hv
      rw [Expr.Uses] at hu
      rw [Expr.code, Expr.eval]
      exact x.does_code ht hK hv hu
  | .neg x, hv, hu => by
      rw [Expr.Valid] at hv
      rw [Expr.Uses] at hu
      rw [Expr.code, Expr.eval]
      split
      · next n hn =>
          have hneg : -BitVec.ofInt 32 n = BitVec.ofInt 32 (wrapWord (-n)) := by
            rw [ofInt_wrapWord, BitVec.ofInt_neg]
          rw [x.eval_of_constant hv hn, pure_bind, hneg]
          exact does_pushConstant _
      · exact (x.does_code ht hK hv hu).bind fun v => .single rfl fun ws => rfl
  | .add e op x, hv, hu => by
      rw [Expr.Valid] at hv
      rw [Expr.Uses] at hu
      rw [Expr.code, Expr.eval, List.append_assoc]
      exact (e.does_code ht hK hv.1 hu.1).bind fun a =>
        ((x.does_code ht hK hv.2 hu.2).above [a]).bind fun b => op.does_opcode a b

theorem Term.does_code (ht : t.Closed) (hK : ∀ id, K id → P.Knows t id) : (x : Term) → x.Valid t →
    x.Uses t K A → P.Does (x.code t) [] (x.eval P t) fun v => [v]
  | .factor f, hv, hu => by
      rw [Term.Valid] at hv
      rw [Term.Uses] at hu
      rw [Term.code, Term.eval]
      exact f.does_code ht hK hv hu
  | .mul x op f, hv, hu => by
      rw [Term.Valid] at hv
      rw [Term.Uses] at hu
      rw [Term.code, Term.eval, List.append_assoc]
      exact (x.does_code ht hK hv.1 hu.1).bind fun a =>
        ((f.does_code ht hK hv.2 hu.2).above [a]).bind fun b => op.does_opcode a b
  | .power x k, hv, hu => by
      rw [Term.Valid] at hv
      rw [Term.Uses] at hu
      obtain ⟨hx, n, rfl, -⟩ := hv
      rw [Term.code, Term.eval]
      exact (x.does_code ht hK hx hu.1).bind fun v => does_powerCode (hu.2 n rfl) v

theorem Factor.does_code (ht : t.Closed) (hK : ∀ id, K id → P.Knows t id) : (f : Factor) → f.Valid t →
    f.Uses t K A → P.Does (f.code t) [] (f.eval P t) fun v => [v]
  | .designator d, hv, hu => by
      rw [Factor.Valid] at hv
      rw [Factor.Uses] at hu
      rw [Factor.code, Factor.eval]
      exact (d.does_code ht hK hv.1 hu).bind_of (d.yields_locate P t hv.1) fun p hp =>
        Operand.does_loading (hp hv.2)
  | .call d arguments _, hv, hu => by
      rw [Factor.Valid] at hv
      rw [Factor.Uses] at hu
      obtain ⟨-, hes, -, id, hid, hlength⟩ := hv
      rw [Factor.code, Factor.eval, d.code_of_method hid, List.nil_append]
      exact (does_codeOfArguments ht hK arguments hes hu.2.1).bind_of (yields_evalArguments P t arguments)
        fun vs hvs => Operand.does_calling ht hid (hK id (hu.2.2 id hid)) (hvs.trans hlength)
  | .number n, _, _ | .char n, _, _ => by
      rw [Factor.code, Factor.eval]
      exact does_pushConstant n
  | .newObject name, _, _ => by
      rw [Factor.code, Factor.eval]
      exact .single rfl fun ws => rfl
  | .newArray name size _, hv, hu => by
      rw [Factor.Valid] at hv
      rw [Factor.Uses] at hu
      rw [Factor.code, Factor.eval]
      refine (size.does_code ht hK hv.2 hu.2).bind fun n => .single rfl fun ws => ?_
      by_cases hchar : t.type? name = some .char
      · rw [if_pos hchar, decide_eq_true hchar]
        rfl
      · rw [if_neg hchar, decide_eq_false hchar]
        rfl
  | .group e _, hv, hu => by
      rw [Factor.Valid] at hv
      rw [Factor.Uses] at hu
      rw [Factor.code, Factor.eval]
      exact e.does_code ht hK hv hu
  | .missing, hv, _ => by
      rw [Factor.Valid] at hv
      exact hv.elim

/-- The code of a designator leaves what its place needs. -/
theorem Designator.does_code (ht : t.Closed) (hK : ∀ id, K id → P.Knows t id) : (d : Designator) →
    d.Valid t → d.Uses t K A → P.Does (d.code t) [] (d.locate P t) Place.words
  | .name n, _, _ => by
      rw [Designator.code, Designator.locate]
      intro ws
      rw [pure_bind, (Designator.toPlace_name t n).1]
      rfl
  | .field d n, hv, hu => by
      rw [Designator.Valid] at hv
      rw [Designator.Uses] at hu
      obtain ⟨hd, hsome, hfield⟩ := hv
      obtain ⟨x, hx⟩ := Option.isSome_iff_exists.1 hfield
      obtain ⟨_, _, -, -, rfl⟩ := SymbolTable.exists_of_fieldOperand? hx
      rw [Designator.code, Designator.locate, Designator.place, hx]
      exact (d.does_code ht hK hd hu).bind_of (d.yields_locate P t hd) fun p hp =>
        (Operand.does_loading (hp hsome)).map fun r => rfl
  | .element d index closed, hv, hu => by
      rw [Designator.Valid] at hv
      rw [Designator.Uses] at hu
      obtain ⟨hd, hsome, hindex⟩ := hv
      rw [Designator.code, Designator.locate, Designator.place, List.append_assoc]
      refine (d.does_code ht hK hd hu.1).bind_of (d.yields_locate P t hd) fun p hp =>
        (Operand.does_loading (hp hsome)).bind fun r =>
        ((index.does_code ht hK hindex hu.2).above [r]).map fun i => ?_
      rw [Operand.toPlace]
      dsimp only
      split <;> rfl

/-- The code of arguments leaves their values, the last one on the top. -/
theorem does_codeOfArguments (ht : t.Closed) (hK : ∀ id, K id → P.Knows t id) : (es : List Expr) →
    ValidArguments t es → UsesOfArguments t K A es →
    P.Does (codeOfArguments t es) [] (evalArguments P t es) List.reverse
  | [], _, _ => by
      rw [codeOfArguments, evalArguments]
      exact fun ws => (pure_bind _ _).symm
  | e :: es, hv, hu => by
      rw [ValidArguments] at hv
      rw [UsesOfArguments] at hu
      rw [codeOfArguments, evalArguments]
      exact (e.does_code ht hK hv.1 hu.1).bind fun v =>
        ((does_codeOfArguments ht hK es hv.2 hu.2).above [v]).map fun vs => List.reverse_cons

end

/-! ### Simple expressions call no method -/

theorem Operand.call_not_mem_calling (a : Int) {x : Operand}
    (h : ∀ id, x.location = .method id → SymbolTable.IsPredeclared id) : .call a ∉ x.calling t := by
  unfold Operand.calling
  split
  · next id hid =>
      have hid := h id hid
      split
      · exact List.not_mem_nil
      · next hconversion =>
          rw [if_pos (hid.resolve_left hconversion)]
          simp
  · exact List.not_mem_nil

theorem call_not_mem_map (a : Int) (os : List Operation) : .call a ∉ os.map Operation.item := by
  intro h
  obtain ⟨_, -, ho⟩ := List.mem_map.1 h
  cases ho

mutual

/-- There is no call in the code of a simple expression. -/
theorem Expr.call_not_mem_code (a : Int) : (e : Expr) → e.Simple t → .call a ∉ e.code t
  | .term x, h => by
      rw [Expr.Simple, Expr.Uses] at h
      rw [Expr.code]
      exact x.call_not_mem_code a h
  | .neg x, h => by
      rw [Expr.Simple, Expr.Uses] at h
      rw [Expr.code]
      split
      · exact call_not_mem_map a _
      · simpa using x.call_not_mem_code a h
  | .add e op x, h => by
      rw [Expr.Simple, Expr.Uses] at h
      rw [Expr.code]
      simpa using ⟨e.call_not_mem_code a h.1, x.call_not_mem_code a h.2⟩

theorem Term.call_not_mem_code (a : Int) : (x : Term) → x.Uses t SymbolTable.IsPredeclared False →
    .call a ∉ x.code t
  | .factor f, h => by
      rw [Term.Uses] at h
      rw [Term.code]
      exact f.call_not_mem_code a h
  | .mul x op f, h => by
      rw [Term.Uses] at h
      rw [Term.code]
      simpa using ⟨x.call_not_mem_code a h.1, f.call_not_mem_code a h.2⟩
  | .power x k, h => by
      rw [Term.Uses] at h
      rw [Term.code, List.mem_append, not_or]
      exact ⟨x.call_not_mem_code a h.1, call_not_mem_map a _⟩

theorem Factor.call_not_mem_code (a : Int) : (f : Factor) → f.Uses t SymbolTable.IsPredeclared False →
    .call a ∉ f.code t
  | .designator d, h => by
      rw [Factor.Uses] at h
      rw [Factor.code, List.mem_append, not_or]
      exact ⟨d.call_not_mem_code a h, call_not_mem_map a _⟩
  | .call d arguments _, h => by
      rw [Factor.Uses] at h
      rw [Factor.code, List.mem_append, List.mem_append, not_or, not_or]
      exact ⟨⟨d.call_not_mem_code a h.1, call_not_mem_codeOfArguments a arguments h.2.1⟩,
        Operand.call_not_mem_calling a h.2.2⟩
  | .number n, _ | .char n, _ => by
      rw [Factor.code]
      exact call_not_mem_map a _
  | .newObject name, _ => by simp [Factor.code]
  | .newArray name size _, h => by
      rw [Factor.Uses] at h
      exact h.1.elim
  | .group e _, h => by
      rw [Factor.Uses] at h
      rw [Factor.code]
      exact e.call_not_mem_code a h
  | .missing, _ => by simp [Factor.code]

theorem Designator.call_not_mem_code (a : Int) : (d : Designator) →
    d.Uses t SymbolTable.IsPredeclared False → .call a ∉ d.code t
  | .name _, _ => by simp [Designator.code]
  | .field d _, h => by
      rw [Designator.Uses] at h
      rw [Designator.code, List.mem_append, not_or]
      exact ⟨d.call_not_mem_code a h, call_not_mem_map a _⟩
  | .element d index _, h => by
      rw [Designator.Uses] at h
      rw [Designator.code, List.mem_append, List.mem_append, not_or, not_or]
      exact ⟨⟨d.call_not_mem_code a h.1, call_not_mem_map a _⟩, index.call_not_mem_code a h.2⟩

theorem call_not_mem_codeOfArguments (a : Int) : (es : List Expr) →
    UsesOfArguments t SymbolTable.IsPredeclared False es → .call a ∉ codeOfArguments t es
  | [], _ => by simp [codeOfArguments]
  | e :: es, h => by
      rw [UsesOfArguments] at h
      rw [codeOfArguments, List.mem_append, not_or]
      exact ⟨e.call_not_mem_code a h.1, call_not_mem_codeOfArguments a es h.2⟩

end

end Tree

/-! ### Runs -/

/-- What was written stands in every code that goes on from there. -/
theorem Compiler.Writes.stands {s s' : Compiler} {is whole : List Item} (hw : s.Writes is s')
    (hafter : s'.items.toList <+: whole) : Item.Stands whole s.offset is := by
  obtain ⟨rest, rfl⟩ := hafter
  exact ⟨s.items.toList, rest, by rw [hw.items], rfl⟩

theorem Emitter.Assembles.decode_eq {e : Emitter} {whole : List Item} (h : e.Assembles whole) :
    Instruction.decode e.code.toList = .ok (Item.decoded e.leadsTo 0 whole).toArray := by
  rw [h.code, Instruction.decode_bytes h.wellFormed, Item.decoded]

namespace Tree

/-- The code of a simple expression, in whatever state the compilation ends, pushes the value of the
expression and changes nothing else, and it stops the machine for the same reason as the evaluation if
there is no value. -/
theorem Expr.computes_compile {s u : Compiler} (hs : s.InBody) (e : Expr)
    (hclean : ¬ ((e.compile >>= Compiler.load) s).2.Faulty) (he : e.Simple s.table)
    (hu : u.code.Assembles u.items.toList)
    (hafter : ((e.compile >>= Compiler.load) s).2.items.toList <+: u.items.toList) :
    ∃ code n, Instruction.decode u.code.code.toList = .ok code ∧
      ∀ (P : Processor ι) (m : Memory ι) (ws : List Word), ∃ outcome : Except Trap Word,
        e.eval P s.table m = outcome.map (·, m) ∧ (∀ e, outcome = .error e → e.IsFailure) ∧
        P.run code.toList n ⟨s.offset, ws, m⟩ =
          outcome.map fun v => ⟨((e.compile >>= Compiler.load) s).2.offset, v :: ws, m⟩ := by
  have hemits : Compiler.Emits Item.IsInner (e.compile >>= Compiler.load) :=
    (e.emits_compile.bind fun x => .load x).inner
  obtain ⟨localCount, dataSize, ht⟩ := hs.limited (mt (hemits s).logs.faulty hclean)
  obtain ⟨-, -, hcode⟩ := (e.makes_compile ht.closed).pushes s (.refl _)
  obtain ⟨_, hw, rfl, hvalid⟩ := hcode hclean
  refine ⟨_, (e.code s.table).length, hu.decode_eq, fun P m ws => ?_⟩
  obtain ⟨outcome, houtcome, hfailure⟩ := e.looks_eval P he m
  refine ⟨outcome, houtcome, hfailure, ?_⟩
  have hrun := (hw.stands hafter).run_decoded P u.code.leadsTo ht (e.isStraight_code s.table)
    (e.inRange_code ht.ranged hvalid (e.literals_of_forall fun _ => trivial))
    (fun b k hb => absurd (Item.mem_of_mem_located hb) (e.call_not_mem_code k he)) ws m
  have hdoes : P.execAll (e.code s.table) ws m = outcome.map fun v => (v :: ws, m) := by
    have hcode := congrFun (e.does_code ht.closed (P := P) (fun _ => .inl) hvalid he ws) m
    change P.execAll (e.code s.table) ws m = e.eval P s.table m >>= _ at hcode
    rw [hcode, houtcome]
    cases outcome <;> rfl
  rw [hrun, hdoes, hw.offset]
  cases outcome <;> rfl

theorem Expr.sound_load {s : Compiler} (hs : s.Sound) (e : Expr) :
    ((e.compile >>= Compiler.load) s).2.Sound :=
  ((Compiler.Safe.bind (e.safe_compile s) fun _ _ _ hx => .load hx) hs).1

end Tree

/-- A program with a class, an array, and a method that counts its calls. -/
def ledger : Tree.Program := Tree.Program.read (TokenSource.scan
  "program P class C \x7b int x; \x7d C c; int[] a; int n; \x7b
     int next(int i) \x7b n++; return i + 1; \x7d
     void main() int i; \x7b \x7d \x7d").tokens

/-- The state before the statements of its main method. -/
def Compiler.inLedger : Compiler :=
  ((ledger.members.filterMap Tree.Member.method?).getLastD default).enter (ledger.after 1)

theorem Compiler.inBody_inLedger : inLedger.InBody := ⟨ledger, 1, _, .refl⟩

theorem Compiler.sound_inLedger : inLedger.Sound := Tree.MethodDecl.sound_enter ledger 1 _

/-- A machine without input and without room, on which the program was loaded. -/
def Processor.ledger : Processor Unit where
  div := BitVec.sdiv
  rem := BitVec.srem
  read _ := .error .input
  readChar _ := .error .input
  new _ := throw .memory
  newArray _ _ := throw .memory
  method _ := ⟨1, fun vs => do
    let n ← (Cell.globalVar 2).fetch
    (Cell.globalVar 2).put (n + 1)
    return vs.headD 0 + 1⟩

/-- The variable `i` is 2, `c.x` is 3, and `a` has five elements, which are 7. -/
def Memory.ledger : Memory Unit where
  cells
    | .localVar _ => 2
    | .globalVar 0 => 100
    | .globalVar 1 => 200
    | .globalVar _ => 0
    | .field _ _ => 3
    | _ => 7
  length _ := 5
  world := ()

/-- The expression `- c.x ** 2 * a[i] - 10 % 4`. -/
def Tree.Expr.ledger : Expr :=
  let name (n : String) : Designator := .name (some n)
  let element : Factor := .designator (.element (name "a") (.term (.factor (.designator (name "i")))) true)
  .add (.neg (.mul (.power (.factor (.designator (.field (name "c") (some "x")))) (some 2)) .times element))
    .minus (.mul (.factor (.number 10)) .percent (.number 4))

/-- Its code pushes its value. -/
theorem Tree.Expr.computes_compile_ledger : ∃ code n,
    Instruction.decode ((Expr.ledger.compile >>= Compiler.load) .inLedger).2.code.code.toList = .ok code ∧
      Processor.ledger.run code.toList n ⟨Compiler.inLedger.offset, [], .ledger⟩ =
        .ok ⟨((Expr.ledger.compile >>= Compiler.load) .inLedger).2.offset, [-65], .ledger⟩ := by
  obtain ⟨hclean, houtcome⟩ : ¬ ((Expr.ledger.compile >>= Compiler.load) .inLedger).2.Faulty ∧
      (Expr.ledger.eval Processor.ledger Compiler.inLedger.table .ledger).toOption.map Prod.fst =
        some (-65) := by decide +kernel
  have hsimple : Expr.ledger.Simple Compiler.inLedger.table := by
    simp [Expr.ledger, Expr.Simple, Expr.Uses, Term.Uses, Factor.Uses, Designator.Uses]
  obtain ⟨code, n, hcode, hruns⟩ := Expr.ledger.computes_compile Compiler.inBody_inLedger hclean hsimple
    (Expr.ledger.sound_load Compiler.sound_inLedger).assembles List.prefix_rfl
  obtain ⟨outcome, hvalue, -, hrun⟩ := hruns Processor.ledger .ledger []
  rw [hvalue] at houtcome
  cases outcome with
  | error _ => cases houtcome
  | ok v =>
      obtain rfl : v = -65 := Option.some.inj houtcome
      exact ⟨code, n, hcode, hrun⟩

end MicroJava
