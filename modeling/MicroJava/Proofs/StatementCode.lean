import MicroJava.Proofs.FlowCode
import MicroJava.Proofs.StackCode

/-!
# Statements are compiled to the code of their flows

`Makes known x P` says that the step `x`, taken when the symbols in `known` are the known ones,
writes items that `P` holds of at the address where they stand, unless there is a fault. A statement
makes the code of its flow (`Tree.Statement.makes_compile`).

A piece has code of its own: what does something by itself writes at least one instruction, unless
there is a fault (`Grows`).
-/

namespace MicroJava

open Compiler

variable {α β : Type}

/-! ### Steps that write something -/

/-- The step writes something, unless there is a fault. -/
def Grows (x : CompilerM α) (s : Compiler) : Prop :=
  Ensures x s fun _ s' => ¬ s'.Faulty → s.items.size < s'.items.size

theorem Compiler.Steps.size_items_le {allowed : Item → Prop} {s s' : Compiler}
    (h : Steps allowed s s') : s.items.size ≤ s'.items.size := by
  obtain ⟨is, hw, -⟩ := h.exists_writes
  rw [← Array.length_toList, ← Array.length_toList, hw.items, List.length_append]
  exact Nat.le_add_right _ _

namespace Grows

variable {x : CompilerM α} {f : α → CompilerM β} {s : Compiler}

theorem of_faulty (hx : Emits Item.IsStraight x) (h : s.Faulty) : Grows x s :=
  fun hclean => absurd ((hx s).logs.faulty h) hclean

theorem bind (hx : Grows x s) (hf : ∀ a, Emits Item.IsStraight (f a)) : Grows (x >>= f) s := by
  intro hclean
  have hsteps := hf (x s).1 (x s).2
  exact (hx fun h => hclean (hsteps.logs.faulty h)).trans_le hsteps.size_items_le

/-- What comes first may be of use for what is written afterwards. -/
theorem after {P : α → Compiler → Prop} (hx : Emits Item.IsStraight x) (hp : Ensures x s P)
    (hf : ∀ a s', P a s' → Grows (f a) s') : Grows (x >>= f) s :=
  fun hclean => (hx s).size_items_le.trans_lt (hf _ _ hp hclean)

theorem later (hx : Emits Item.IsStraight x) (hf : ∀ a s', Grows (f a) s') : Grows (x >>= f) s :=
  .after (P := fun _ _ => True) hx trivial fun a s' _ => hf a s'

theorem write (i : Item) : Grows (Compiler.write i) s := by
  intro
  change s.items.size < (s.items.push i).size
  rw [Array.size_push]
  exact Nat.lt_succ_self _

theorem emit (op : Opcode) (operands : List Int) : Grows (Compiler.emit op operands) s := write _

theorem fault (m : Message) : Grows (Compiler.fault m) s :=
  fun hclean => absurd (faulty_fault m s) hclean

theorem emitAll {os : List Operation} (hos : os ≠ []) : Grows (Compiler.emitAll os) s := by
  refine (ensures_emitAll os).mono fun _ s' ⟨_, hw⟩ _ => ?_
  rw [← Array.length_toList, ← Array.length_toList, hw.items, List.length_append, List.length_map]
  exact Nat.lt_add_of_pos_right (List.length_pos_iff.2 hos)

variable {y z : Operand}

theorem store (y : Operand) : Grows (Compiler.store y) s := by
  unfold Compiler.store
  split
  · next os hos =>
      refine emitAll ?_
      rintro rfl
      rcases y with ⟨location, type⟩
      cases location <;> cases hos
  · exact fault _

theorem assign (y z : Operand) : Grows (Compiler.assign y z) s :=
  .later (.load z) fun _ _ => (store y).bind fun _ => .pure

theorem update (y z : Operand) {op : Opcode} (hop : op.isStraight = true)
    (hnone : op.immediates = []) : Grows (Compiler.update y z op) s :=
  .later (.load z) fun _ _ => .later (.emit hop (by simp [hnone])) fun _ _ => (store y).bind fun _ =>
    .pure

theorem increment (y : Operand) (n : Int) : Grows (Compiler.increment y n) s := by
  have general : Grows (do
      Compiler.prepareUpdate y
      let _ ← Compiler.update y (Operand.constant n .int) .add) s :=
    .later (.prepareUpdate y) fun _ _ => (update y _ rfl rfl).bind fun _ =>
      .pure
  unfold Compiler.increment
  split
  · split
    · exact emit _ _
    · exact general
  · exact general

/-- A method without a value is called by an instruction. The conversions, which are not, have
values. -/
theorem call {c : Calls} (hy : c.Knows y) {id : SymbolId} (hid : y.location = .method id)
    (hvoid : y.type = .void) : Grows (Compiler.call y) s := by
  have hdeclared : ¬((id = SymbolTable.ordId ∨ id = SymbolTable.chrId) ∨ id = SymbolTable.lenId) :=
    fun h => (c.predeclared id h).2 ((hy id hid).2.trans hvoid)
  rw [not_or] at hdeclared
  unfold Compiler.call
  rw [hid]
  simp only [hdeclared.1, hdeclared.2, if_false]
  exact .later (.symbol id) fun _ _ => write _

end Grows

namespace Tree

variable {c : Calls} {s : Compiler} {x : Operand}

theorem grows_compileAssignment (x : Operand) (op : AssignOp) (value : Expr) :
    Grows (compileAssignment x op value) s := by
  unfold compileAssignment
  split
  · refine .later value.emits_compile fun y _ => .later (.inspect _) fun _ _ => ?_
    exact .later (.faultIf _ _) fun _ _ => (Grows.assign x y).bind fun _ =>
      .pure
  · next operation hop =>
      obtain ⟨hstraight, hnone⟩ := AssignOp.isStraight_of_opcode? hop
      refine .later (.prepareUpdate x) fun _ _ => .later value.emits_compile fun y _ => ?_
      exact .later (.requireInts x y) fun _ _ => (Grows.update x y hstraight hnone).bind fun _ =>
        .pure

theorem grows_compileStep (x : Operand) (n : Int) : Grows (compileStep x n) s :=
  .later (.faultIf _ _) fun _ _ => .later (.requireAssignable x) fun _ _ =>
    .later (.shift) fun _ _ => .increment x n

/-- Whatever happens to a designator, something is written for it. -/
theorem Action.grows_compile (hs : s.table.symbols = c.table.symbols) (hx : c.Knows x) :
    (a : Action) → Grows (a.compile x) s
  | .assign op value =>
      .later (.requireAssignable x) fun _ _ => .later (.shift) fun _ _ =>
        grows_compileAssignment x op value
  | .call arguments closed => by
      have hemits : Emits Item.IsStraight (do
          Compiler.call x
          if x.location.isMethod && x.type ≠ .void then Compiler.emit .pop []) := by
        refine (Emits.call x).bind fun _ => ?_
        split
        · exact .emit rfl rfl
        · exact .pure
      refine .after (.passArguments x closed (emits_compileArguments true arguments))
        (ensures_passArguments hs arguments closed) fun _ s' h => ?_
      by_cases hfaulty : s'.Faulty
      · exact .of_faulty hemits hfaulty
      · obtain ⟨⟨id, hid⟩, -⟩ := h hfaulty
        have hmethod : x.location.isMethod = true := by
          rw [hid]
          rfl
        by_cases hvoid : x.type = .void
        · rw [if_neg (by simp [hvoid])]
          exact (Grows.call hx hid hvoid).bind fun _ => .pure
        · rw [if_pos (by simp [hmethod, hvoid])]
          exact .later (.call x) fun _ _ => .emit _ _
  | .increment => grows_compileStep x 1
  | .decrement => grows_compileStep x (-1)
  | .missing => .fault _

end Tree

/-! ### Steps that write code of a certain form -/

/-- Unless there is a fault, the step writes items that `P` holds of where they stand. -/
def Makes (known : SymbolTable) (x : CompilerM α) (P : α → Nat → List Item → Prop) : Prop :=
  ∀ s : Compiler, known.Extends s.table → Ensures x s fun a s' =>
    known.Extends s'.table ∧ s.Logs s' ∧ (¬ s'.Faulty → ∃ is, s.Writes is s' ∧ P a s.offset is)

namespace Makes

variable {known : SymbolTable} {x : CompilerM α} {f : α → CompilerM β}
  {P P' : α → Nat → List Item → Prop} {Q : α → β → Nat → List Item → Prop}
  {R : β → Nat → List Item → Prop}

theorem of_emits (hx : Emits Item.IsInner x)
    (h : ∀ s : Compiler, known.Extends s.table → Ensures x s fun a s' =>
      ¬ s'.Faulty → ∃ is, s.Writes is s' ∧ P a s.offset is) : Makes known x P :=
  fun s hs => ⟨hs.trans (hx s).table_extends, (hx s).logs, h s hs⟩

theorem mono (hx : Makes known x P) (h : ∀ a pc is, P a pc is → P' a pc is) : Makes known x P' :=
  fun s hs => (hx s hs).mono fun a _ ⟨hs', hlogs, hmakes⟩ => ⟨hs', hlogs, fun hclean =>
    (hmakes hclean).imp fun is ⟨hw, hp⟩ => ⟨hw, h a s.offset is hp⟩⟩

/-- What a step writes stands behind what was written before. -/
theorem bind (hx : Makes known x P) (hf : ∀ a, Makes known (f a) (Q a)) :
    Makes known (x >>= f) fun b pc is => ∃ a js ks, is = js ++ ks ∧ P a pc js ∧
      Q a b (pc + Item.codeSize js) ks := by
  intro s hs
  refine (hx s hs).bind fun a s' ⟨hs', hlogs, hmakes⟩ => ?_
  refine (hf a s' hs').mono fun b s'' ⟨hs'', hlogs', hmakes'⟩ =>
    ⟨hs'', hlogs.trans hlogs', fun hclean => ?_⟩
  obtain ⟨js, hw, hp⟩ := hmakes fun hfaulty => hclean (hlogs'.faulty hfaulty)
  obtain ⟨ks, hw', hq⟩ := hmakes' hclean
  rw [hw.offset] at hq
  exact ⟨js ++ ks, hw.append hw', a, js, ks, rfl, hp, hq⟩

theorem pure {a : α} (h : ∀ pc, P a pc []) : Makes known (Pure.pure a) P :=
  .of_emits .pure fun s _ _ => ⟨[], .nil rfl rfl, h s.offset⟩

/-- A step that writes nothing. -/
theorem silent (hx : Emits (fun _ => False) x) : Makes known x fun _ _ is => is = [] :=
  .of_emits (hx.mono fun _ => False.elim) fun s _ _ => ⟨[], (hx s).writes_nil, rfl⟩

theorem silent_bind (hx : Emits (fun _ => False) x) (hf : ∀ a, Makes known (f a) R) :
    Makes known (x >>= f) R := by
  refine ((silent hx).bind hf).mono ?_
  rintro b pc _ ⟨a, _, ks, rfl, rfl, hr⟩
  exact hr

/-- What follows a step may write nothing. -/
theorem bind_silent {P : α → Nat → List Item → Prop} (hx : Makes known x P)
    (hf : ∀ a, Emits (fun _ => False) (f a)) :
    Makes known (x >>= f) fun _ pc is => ∃ a, P a pc is := by
  refine (hx.bind fun a => silent (hf a)).mono ?_
  rintro b pc _ ⟨a, js, _, rfl, hp, rfl⟩
  rw [List.append_nil]
  exact ⟨a, hp⟩

theorem of_faulty (hx : Emits Item.IsInner x) (h : ∀ s, Ensures x s fun _ s' => s'.Faulty) :
    Makes known x P :=
  .of_emits hx fun s _ hclean => absurd (h s) hclean

theorem fault (m : Message) {P : Unit → Nat → List Item → Prop} : Makes known (Compiler.fault m) P :=
  of_faulty (.fault m) (faulty_fault m)

theorem write {i : Item} (hi : i.IsInner) : Makes known (Compiler.write i) fun _ _ is => is = [i] :=
  .of_emits (.write hi) fun _ _ _ => ⟨[i], ⟨Array.toList_push, rfl⟩, rfl⟩

theorem mark : Makes known (Compiler.write .statement) fun _ _ is => is = [.statement] :=
  write trivial

theorem newLabel : Makes known Compiler.newLabel fun _ _ is => is = [.label] :=
  silent_bind .get fun _ => ((write (i := .label) trivial).bind_silent fun _ => .pure).mono fun _ _ _ ⟨_, h⟩ => h

theorem place (l : Label) : Makes known (Compiler.place l) fun _ _ is => is = [.place l] :=
  silent_bind .get fun _ => silent_bind (.refer _) fun _ => write trivial

theorem jump (l : Label) : Makes known (Compiler.jump l) fun _ _ is => is = [.jump .jmp l] :=
  silent_bind (.refer _) fun _ => write rfl

theorem straight (hx : Emits Item.IsStraight x) :
    Makes known x fun _ _ is => ∀ i ∈ is, i.IsStraight :=
  .of_emits hx.inner fun s _ _ => (hx s).exists_writes

/-- A step that grows writes at least one item. -/
theorem ne_nil (hx : Makes known x P) (hgrows : ∀ s, known.Extends s.table → Grows x s) :
    Makes known x fun a pc is => P a pc is ∧ is ≠ [] := by
  intro s hs
  refine ((hx s hs).and (hgrows s hs)).mono fun a s' ⟨⟨hs', hlogs, hmakes⟩, hlt⟩ =>
    ⟨hs', hlogs, fun hclean => ?_⟩
  obtain ⟨is, hw, hp⟩ := hmakes hclean
  refine ⟨is, hw, hp, ?_⟩
  rintro rfl
  have hitems := hw.items
  rw [List.append_nil] at hitems
  exact absurd (congrArg List.length hitems) (hlt hclean).ne'

end Makes

namespace Tree

variable {known : SymbolTable}

theorem makes_compileGuard (opened : Bool) (cs : Condition) (closed : Bool) :
    Makes known (compileGuard opened cs closed) fun f a is => cs.Guards known a is f := by
  refine .of_emits (emits_compileGuard opened cs closed) fun s hs => ?_
  apply (lays_compileGuard opened cs closed s).mono
  rintro f s' ⟨xs, x, hf, hterms, hrow, hw⟩ -
  exact ⟨_, hw, s.code.nextLabel, xs, x, hf, hterms, hrow.mono hs, rfl⟩

/-- The items of a flow whose pieces are those of the flow of a statement. -/
def Flows (known : SymbolTable) (l : Option Label) (g : Flow Piece) (a : Nat) (is : List Item) :
    Prop :=
  ∃ h : Flow Site, FlowCode known l a is h ∧ h.map Site.piece = g

variable {P : Unit → Nat → List Item → Prop} {l : Option Label} {type : Ty} {st : Statement}

/-- What a statement writes is its code. -/
theorem Statement.written_of_makes (h : Makes known (st.compile l type) P) :
    Makes known (st.compile l type) fun u a is => P u a is ∧ st.Written known a is := by
  intro s hs
  obtain ⟨hs', hlogs, hmakes⟩ := h s hs
  refine ⟨hs', hlogs, fun hclean => ?_⟩
  obtain ⟨is, hw, hp⟩ := hmakes hclean
  exact ⟨is, hw, hp, s, l, type, hs, rfl, hw⟩

/-- A statement that does something by itself writes its mark and straight code. -/
theorem Statement.makes_visit {rest : CompilerM Unit}
    (hst : st.compile l type = Compiler.write .statement >>= fun _ => rest)
    (hflow : st.flow = .visit (.statement st)) (hemits : Emits Item.IsStraight rest)
    (hgrows : ∀ s, known.Extends s.table → Grows rest s) :
    Makes known (st.compile l type) fun _ => Flows known l st.flow := by
  have hcode : Makes known (st.compile l type) fun _ _ is =>
      ∃ js, is = .statement :: js ∧ (∀ i ∈ js, i.IsStraight) ∧ js ≠ [] := by
    rw [hst]
    refine (Makes.mark.bind fun _ => (Makes.straight hemits).ne_nil hgrows).mono ?_
    rintro _ a _ ⟨_, _, js, rfl, rfl, his, hne⟩
    exact ⟨js, rfl, his, hne⟩
  refine (Statement.written_of_makes hcode).mono ?_
  rintro _ a _ ⟨⟨js, rfl, his, hne⟩, hwritten⟩
  exact ⟨_, .visit l hwritten hne his, hflow.symm⟩

mutual

/-- A statement makes the code of its flow. -/
theorem Statement.makes_compile (c : Calls) (l : Option Label) (type : Ty) :
    (st : Statement) → Makes c.table (st.compile l type) fun _ => Flows c.table l st.flow
  | .action d a ended => by
      refine Statement.makes_visit (by rw [Statement.compile]) (by rw [Statement.flow]) ?_ fun s hs => ?_
      · exact d.emits_compile.bind fun x => (a.emits_compile x).bind fun _ => .expect _ _
      · have hmoves : Moves c 0 Nothing d.compile 0 Operand.held c.Knows := d.moves_compile _
        have hknows : Ensures d.compile s fun x s' => s'.table.symbols = c.table.symbols ∧ c.Knows x :=
          (hmoves s hs.symbols).mono fun _ _ h => ⟨h.1, h.2.2.1⟩
        exact .after d.emits_compile hknows fun x s' ⟨hs', hx⟩ =>
          (a.grows_compile hs' hx).bind fun _ => .expect _ _
  | .ifThen opened condition closed body => by
      rw [Statement.compile]
      refine (Makes.mark.bind fun _ => .silent_bind .shift fun _ =>
        (makes_compileGuard opened condition closed).bind fun f =>
        (body.makes_compile c l type).bind fun _ => .place f).mono ?_
      rintro _ a _ ⟨_, _, _, rfl, rfl, f, gs, _, rfl, hguard, _, is, _, rfl, ⟨g, hg, hmap⟩, rfl⟩
      refine ⟨_, .mark (.branch hguard hg), ?_⟩
      rw [Statement.flow, ← hmap]
      rfl
  | .ifThenElse opened condition closed body other => by
      rw [Statement.compile]
      refine (Makes.mark.bind fun _ => .silent_bind .shift fun _ =>
        (makes_compileGuard opened condition closed).bind fun f =>
        (body.makes_compile c l type).bind fun _ => .silent_bind .shift fun _ =>
        Makes.newLabel.bind fun l' => (Makes.jump l').bind fun _ => (Makes.place f).bind fun _ =>
        (other.makes_compile c l type).bind fun _ => .place l').mono ?_
      rintro _ a _ ⟨_, _, _, rfl, rfl, f, gs, _, rfl, hguard, _, is, _, rfl, ⟨g, hg, hmap⟩, l', _, _,
        rfl, rfl, _, _, _, rfl, rfl, _, _, _, rfl, rfl, _, js, _, rfl, ⟨g', hg', hmap'⟩, rfl⟩
      refine ⟨_, .mark (.branchElse hguard hg rfl hg'), ?_⟩
      rw [Statement.flow, ← hmap, ← hmap']
      rfl
  | .whileDo opened condition closed body => by
      rw [Statement.compile]
      refine (Makes.mark.bind fun _ => .silent_bind .shift fun _ =>
        Makes.newLabel.bind fun t => (Makes.place t).bind fun _ =>
        (makes_compileGuard opened condition closed).bind fun f =>
        (body.makes_compile c (some f) type).bind fun _ => (Makes.jump t).bind fun _ =>
        .place f).mono ?_
      rintro _ a _ ⟨_, _, _, rfl, rfl, t, _, _, rfl, rfl, _, _, _, rfl, rfl, f, gs, _, rfl, hguard, _,
        is, _, rfl, ⟨g, hg, hmap⟩, _, _, _, rfl, rfl, rfl⟩
      refine ⟨_, .mark (.loop hguard hg rfl), ?_⟩
      rw [Statement.flow, ← hmap]
      rfl
  | .leave ended => by
      rw [Statement.compile]
      cases l with
      | none =>
          refine .of_faulty ?_ fun s => ?_
          · exact (Emits.write trivial).bind fun _ => Emits.shift.bind fun _ =>
              (Emits.fault _).bind fun _ => .expect _ _
          · refine .step fun _ s => .step fun _ s => ?_
            have hfault : Ensures (compileBreak none) s fun _ s' => s'.Faulty := faulty_fault _ s
            have hexpect : Emits Item.IsInner (expect .semicolon ended) := .expect _ _
            exact hfault.bind fun _ s' h => (hexpect s').logs.faulty h
      | some l =>
          refine (Makes.mark.bind fun _ => .silent_bind .shift fun _ =>
            (Makes.jump l).bind_silent fun _ => .expect _ _).mono ?_
          rintro _ a _ ⟨_, _, _, rfl, rfl, _, rfl⟩
          exact ⟨_, .mark (.leave l a), by rw [Statement.flow]; rfl⟩
  | .give value ended => by
      have hcode : Makes c.table (Statement.compile l type (.give value ended)) fun _ _ is =>
          ∃ js, is = .statement :: (js ++ [.instruction .exit [], .instruction .ret []]) ∧
            ∀ i ∈ js, i.IsStraight := by
        have hexit : (Item.instruction .exit []).IsInner := ⟨by decide, rfl, rfl⟩
        have hret : (Item.instruction .ret []).IsInner := ⟨by decide, rfl, rfl⟩
        rw [Statement.compile]
        refine (Makes.mark.bind fun _ => .silent_bind .shift fun _ =>
          (Makes.straight (emits_compileReturned type value)).bind fun _ =>
          (Makes.write hexit).bind fun _ => (Makes.write hret).bind_silent fun _ =>
          .expect _ _).mono ?_
        rintro _ a _ ⟨_, _, _, rfl, rfl, _, js, _, rfl, hjs, _, _, _, rfl, rfl, _, rfl⟩
        exact ⟨js, rfl, hjs⟩
      refine (Statement.written_of_makes hcode).mono ?_
      rintro _ a _ ⟨⟨js, rfl, hjs⟩, hwritten⟩
      exact ⟨_, .give l hwritten hjs, by rw [Statement.flow]; rfl⟩
  | .read opened d closed ended => by
      refine Statement.makes_visit (by rw [Statement.compile]) (by rw [Statement.flow]) ?_ fun s hs => ?_
      · exact .bind .shift fun _ => (Emits.expect _ _).bind fun _ => d.emits_compile.bind fun x =>
          (Emits.requireAssignable x).bind fun _ => (emits_readValue x.type).bind fun _ =>
          (Emits.assign x _).bind fun _ => (Emits.expect _ _).bind fun _ => .expect _ _
      · exact .later .shift fun _ _ => .later (.expect _ _) fun _ _ => .later d.emits_compile fun x _ =>
          .later (.requireAssignable x) fun _ _ => .later (emits_readValue x.type) fun _ _ =>
          (Grows.assign x _).bind fun _ => (Emits.expect _ _).bind fun _ => .expect _ _
  | .print opened value width closed ended => by
      refine Statement.makes_visit (by rw [Statement.compile]) (by rw [Statement.flow]) ?_ fun s hs => ?_
      · exact .bind .shift fun _ => (Emits.expect _ _).bind fun _ => value.emits_compile.bind fun x =>
          (Emits.faultIf _ _).bind fun _ => (Emits.load x).bind fun _ =>
          (emits_compileWidth width).bind fun n =>
          (Emits.emitAll fun _ => print_isStraight n x.type).bind fun _ =>
          (Emits.expect _ _).bind fun _ => .expect _ _
      · exact .later .shift fun _ _ => .later (.expect _ _) fun _ _ => .later value.emits_compile fun x _ =>
          .later (.faultIf _ _) fun _ _ => .later (.load x) fun _ _ =>
          .later (emits_compileWidth width) fun n _ => (Grows.emitAll (by simp)).bind fun _ =>
          (Emits.expect _ _).bind fun _ => .expect _ _
  | .block statements closed => by
      rw [Statement.compile]
      refine (Makes.mark.bind fun _ => .silent_bind .shift fun _ =>
        (makes_compileStatements c l type statements).bind_silent fun _ => .expect _ _).mono ?_
      rintro _ a _ ⟨_, _, _, rfl, rfl, _, g, hg, hmap⟩
      exact ⟨_, .mark hg, by rw [Statement.flow, ← hmap]⟩
  | .empty => by
      rw [Statement.compile]
      refine (Makes.mark.bind_silent fun _ => .shift).mono ?_
      rintro _ a _ ⟨_, rfl⟩
      exact ⟨_, .mark (.skip l a), by rw [Statement.flow]; rfl⟩
  | .missing => by
      rw [Statement.compile]
      exact .of_faulty ((Emits.write trivial).bind fun _ => .fault _) fun s =>
        .step fun _ s => faulty_fault _ s
  | .skipped more => by
      rw [Statement.compile]
      exact .of_faulty ((Emits.write trivial).bind fun _ => .skip _ more) fun s =>
        .step fun _ s => faulty_skip _ more s

theorem makes_compileStatements (c : Calls) (l : Option Label) (type : Ty) :
    (ss : List Statement) →
      Makes c.table (compileStatements l type ss) fun _ => Flows c.table l (flowOfStatements ss)
  | [] => by
      rw [compileStatements]
      exact .pure fun a => ⟨.skip, .skip l a, rfl⟩
  | st :: ss => by
      rw [compileStatements]
      refine ((st.makes_compile c l type).bind fun _ => makes_compileStatements c l type ss).mono ?_
      rintro _ a _ ⟨_, is, js, rfl, ⟨g, hg, hmap⟩, h, hh, hmap'⟩
      exact ⟨.seq g h, .seq hg hh, by rw [flowOfStatements, ← hmap, ← hmap']; rfl⟩

end

end Tree

end MicroJava
