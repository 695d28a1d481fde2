import MicroJava.Proofs.Checks
import MicroJava.Proofs.Completeness
import MicroJava.Proofs.ExpressionRuns
import MicroJava.Proofs.Reports

/-!
# Checking expressions is sound and complete

While an expression is compiled its parts are checked here and there, some of them only when they are loaded.
Still, what is compiled and loaded without a fault has a type, that of the operand (`Tree.Expr.vouches_load`),
and what has a type is compiled and loaded without a fault (`Tree.Expr.HasType.succeeds_load`).

Before there is a diagnostic each fault is shown. So the diagnostics tell exactly which expressions have a type
and which conditions are well typed (`Tree.silent_iff_hasType`).
-/

namespace MicroJava

open Compiler MicroJava.Tree

theorem Ty.exists_of_shape_eq_array {type : Ty} (h : type.shape = .array) :
    ∃ id element, type = .array id element := by
  cases type with
  | array id element => exact ⟨id, element, rfl⟩
  | _ => cases h

theorem Operand.int_of_ints {y z : Operand}
    (h : (decide (y.onStack.type ≠ .int) || decide (z.onStack.type ≠ .int)) = false) :
    y.type = .int ∧ z.type = .int := by
  obtain ⟨hy, hz⟩ := Bool.or_eq_false_iff.1 h
  exact ⟨not_not.1 (of_decide_eq_false hy), not_not.1 (of_decide_eq_false hz)⟩

theorem Ty.eq_int_of_same {type : Ty} (h : same int type = true) : type = int := by
  cases type <;> simp_all [same]

theorem Relation.isEquality_iff {r : Relation} : r.isEquality = true ↔ r = .eq ∨ r = .ne := by
  cases r <;> simp [isEquality]

/-- The operand can be loaded, and the value is of a type that is the same as the given one. -/
def Operand.IsValue (type : Ty) (y : Operand) : Prop :=
  y.loadCode?.isSome = true ∧ Ty.same type y.type = true

namespace Operand.IsValue

variable {y : Operand} {type : Ty}

theorem type_int (h : y.IsValue .int) : y.type = .int := Ty.eq_int_of_same h.2

theorem onStack (h : y.IsValue type) : y.onStack.IsValue type := ⟨rfl, h.2⟩

end Operand.IsValue

namespace SymbolTable.Genuine

variable {t : SymbolTable}

/-- Only the values of a class have fields. -/
theorem object_of_field? (ht : t.Genuine) {type : Ty} (hshape : type.shape = .object) {name : String}
    {id : SymbolId} (h : t.field? type name = some id) : ∃ c, type = .object c := by
  cases type with
  | object c => exact ⟨c, rfl⟩
  | null => simp [field?, ht.null] at h
  | _ => cases hshape

/-- A name stands for a class if it stands for objects. -/
theorem object_of_type? (ht : t.Genuine) {type : Ty} (hshape : type.shape = .object) {name : String}
    (h : t.type? (some name) = some type) : ∃ c, type = .object c := by
  obtain ⟨id, -, hkind, rfl⟩ := exists_of_type? h
  rcases ht.typeNames id hkind with hint | hchar | hobject
  · rw [hint] at hshape
    cases hshape
  · rw [hchar] at hshape
    cases hshape
  · exact hobject

end SymbolTable.Genuine

/-- The exponents that are accepted. -/
def SmallExponent (k : Int) : Prop := k ≤ maxExponent

namespace Tree

variable {t : SymbolTable}

/-! ### Whatever is accepted has a type -/

-- What the steps vouch for is introduced from the last step back to the first.

mutual

theorem Expr.vouches_compile (ht : t.Genuine) : (e : Expr) → Vouches t e.compile fun y =>
    y.loadCode?.isSome = true → e.HasType t SmallExponent y.type
  | .term x => by
      rw [Expr.compile]
      exact (x.vouches_compile ht).mono fun _ hx hy => .term (hx hy)
  | .neg x => by
      rw [Expr.compile]
      refine .next .shift fun _ => (x.vouches_compile ht).bind fun y => (Vouches.faultIf _ _).bind fun _ =>
        (Vouches.negate y).mono ?_
      rintro z ⟨hy, -, hz⟩ hint hx -
      have hint : y.type = .int := by simpa using hint
      rw [hz, hint]
      exact .neg (hint ▸ hx hy)
  | .add e op x => by
      rw [Expr.compile]
      refine (e.vouches_compile ht).bind fun y => .next .shift fun _ => (Vouches.load y).bind fun y' =>
        (x.vouches_compile ht).bind fun z => (Vouches.load z).bind fun z' => (Vouches.faultIf _ _).bind fun _ =>
        .next (.emit _ _) fun _ => .pure ?_
      rintro hints ⟨hz, rfl⟩ hx ⟨hy, rfl⟩ he -
      obtain ⟨hinty, hintz⟩ := Operand.int_of_ints hints
      exact hinty.symm ▸ .add (hinty ▸ he hy) (hintz ▸ hx hz)

theorem Term.vouches_compile (ht : t.Genuine) : (x : Term) → Vouches t x.compile fun y =>
    y.loadCode?.isSome = true → x.HasType t SmallExponent y.type
  | .factor f => by
      rw [Term.compile]
      exact (f.vouches_compile ht).mono fun _ hf hy => .factor (hf hy)
  | .mul x op f => by
      rw [Term.compile]
      refine (x.vouches_compile ht).bind fun y => .next .shift fun _ => (Vouches.load y).bind fun y' =>
        (f.vouches_compile ht).bind fun z => (Vouches.load z).bind fun z' => (Vouches.faultIf _ _).bind fun _ =>
        .next (.emit _ _) fun _ => .pure ?_
      rintro hints ⟨hz, rfl⟩ hf ⟨hy, rfl⟩ hx -
      obtain ⟨hinty, hintz⟩ := Operand.int_of_ints hints
      exact hinty.symm ▸ .mul (hinty ▸ hx hy) (hintz ▸ hf hz)
  | .power x k => by
      rw [Term.compile]
      refine (x.vouches_compile ht).bind fun y => .next .shift fun _ => (Vouches.expectNumber 1 k).bind fun n =>
        (Vouches.faultIf _ _).bind fun _ => (Vouches.faultIf _ _).bind fun _ => (Vouches.load y).bind fun y' =>
        .next (.emitAll _) fun _ => .pure ?_
      rintro ⟨hy, rfl⟩ hsmall hint rfl hx -
      have hint : y.type = .int := by simpa using hint
      have hsmall : n ≤ maxExponent := by simpa using hsmall
      exact hint.symm ▸ .power (hint ▸ hx hy) hsmall

theorem Factor.vouches_compile (ht : t.Genuine) : (f : Factor) → Vouches t f.compile fun y =>
    y.loadCode?.isSome = true → f.HasType t SmallExponent y.type
  | .designator d => by
      rw [Factor.compile]
      exact (d.vouches_compile ht).mono fun _ hd hy => .designator (hd.1 hy)
  | .call d arguments closed => by
      -- the operand need not be loadable, since a method is not
      rw [Factor.compile]
      refine (d.vouches_compile ht).bind fun y =>
        (Vouches.passArguments y closed (vouches_compileArguments ht true arguments)).bind fun _ =>
        (Vouches.faultIf _ _).bind fun _ => .next (.call y) fun _ => .pure ?_
      rintro hvoid ⟨id, hid, hfit, rfl⟩ ⟨-, hmethod⟩ -
      obtain ⟨hd, htype⟩ := hmethod id hid
      have hvoid : y.type ≠ .void := by simpa [hid, Location.isMethod] using hvoid
      exact htype ▸ .call hd hfit (htype ▸ hvoid)
  | .number n => by
      rw [Factor.compile]
      exact .next .shift fun _ => .pure fun _ => .number
  | .char n => by
      rw [Factor.compile]
      exact .next .shift fun _ => .pure fun _ => .char
  | .newObject name => by
      rw [Factor.compile]
      refine .next .shift fun _ => (Vouches.expectName name).bind fun n => (Vouches.findType n).bind fun type =>
        .next (.inspect _) fun _ => (Vouches.faultIf _ _).bind fun _ => .next (.fields type) fun _ =>
        .next (.emit _ _) fun _ => .pure ?_
      rintro hobject htype rfl -
      obtain ⟨c, rfl⟩ := ht.object_of_type? (not_not.1 (of_decide_eq_false hobject)) htype
      exact .newObject htype
  | .newArray name size closed => by
      rw [Factor.compile]
      refine .next .shift fun _ => (Vouches.expectName name).bind fun n => (Vouches.findType n).bind fun type =>
        .next .shift fun _ => (size.vouches_compile ht).bind fun y => (Vouches.faultIf _ _).bind fun _ =>
        (Vouches.load y).bind fun _ => .next (.emit _ _) fun _ => (Vouches.expect _ closed).bind fun _ =>
        (Vouches.of_succeeds (.newArray type)).bind fun array => .pure ?_
      rintro ⟨id, rfl⟩ rfl ⟨hy, -⟩ hint hsize htype rfl -
      have hint : y.type = .int := by simpa using hint
      exact .newArray htype (hint ▸ hsize hy)
  | .group e closed => by
      rw [Factor.compile]
      refine .next .shift fun _ => (e.vouches_compile ht).bind fun y => (Vouches.expect _ closed).bind fun _ =>
        .pure ?_
      rintro rfl he hy
      exact .group (he hy)
  | .missing => by
      rw [Factor.compile]
      exact .fault_bind _ (.pure trivial)

theorem Designator.vouches_compile (ht : t.Genuine) : (d : Designator) → Vouches t d.compile fun y =>
    (y.loadCode?.isSome = true → d.HasType t SmallExponent y.type) ∧
      ∀ id, y.location = .method id → d.IsMethod t id ∧ y.type = (t.symbol id).type
  | .name n => by
      rw [Designator.compile]
      refine (Vouches.expectName n).bind fun name => (Vouches.find name).bind fun id =>
        (Vouches.operandOf id).mono ?_
      rintro y hy hid rfl
      unfold Operand.ofSymbol? at hy
      split at hy <;> cases hy
      · next hkind => exact ⟨fun _ => .name hid (.inr hkind), fun _ h => by cases h⟩
      · next hkind =>
          refine ⟨fun _ => .name hid (.inl hkind), fun _ h => ?_⟩
          dsimp only at h
          split at h <;> cases h
      · next hkind =>
          refine ⟨fun h => Bool.noConfusion h, fun _ h => ?_⟩
          obtain rfl := Location.method.inj h
          exact ⟨.name hid hkind, rfl⟩
  | .field d n => by
      rw [Designator.compile]
      refine (d.vouches_compile ht).bind fun y => .next (.inspect _) fun _ =>
        (Vouches.faultIf _ _).bind fun _ => .next .shift fun _ => (Vouches.load y).bind fun y' =>
        (Vouches.expectName n).bind fun name => (Vouches.findField y'.type name).bind fun id =>
        (Vouches.of_succeeds (.symbol id)).bind fun c => .pure ?_
      rintro rfl hid rfl ⟨hy, rfl⟩ hobject ⟨hd, -⟩
      obtain ⟨c, hc⟩ := ht.object_of_field? (not_not.1 (of_decide_eq_false hobject)) hid
      exact ⟨fun _ => .field (hc ▸ hd hy) (hc ▸ hid), fun _ h => by cases h⟩
  | .element d index closed => by
      rw [Designator.compile]
      refine (d.vouches_compile ht).bind fun y => .next .shift fun _ => (Vouches.load y).bind fun y' =>
        .next (.inspect _) fun _ => (Vouches.faultIf _ _).bind fun _ =>
        (index.vouches_compile ht).bind fun i => (Vouches.faultIf _ _).bind fun _ =>
        (Vouches.load i).bind fun _ => (Vouches.expect _ closed).bind fun _ => .pure ?_
      rintro rfl ⟨hi, -⟩ hint hindex harray ⟨hy, rfl⟩ ⟨hd, -⟩
      have hint : i.type = .int := by simpa using hint
      have harray : y.type.shape = .array := not_not.1 (of_decide_eq_false harray)
      obtain ⟨id, element, harray⟩ := Ty.exists_of_shape_eq_array harray
      have helement : y.type.element = element := by rw [harray, Ty.element]
      exact ⟨fun _ => helement ▸ .element (harray ▸ hd hy) (hint ▸ hindex hi), fun _ h => by cases h⟩

theorem vouches_compileArguments (ht : t.Genuine) (first : Bool) : (es : List Expr) → (formals : List Ty) →
    Vouches t (compileArguments first es formals) fun left => left = [] →
      ArgumentsFit t SmallExponent es formals
  | [], formals => by
      rw [compileArguments]
      exact .pure fun h => h ▸ .nil
  | e :: es, formals => by
      rw [compileArguments]
      refine .next (.shiftUnless first) fun _ => (e.vouches_compile ht).bind fun y =>
        (Vouches.load y).bind fun y' => (Vouches.passArgument y' formals).bind fun left =>
        (vouches_compileArguments ht false es left).mono ?_
      rintro _ hes ⟨formal, rfl, hformal⟩ ⟨hy, rfl⟩ he hnone
      exact .cons (he hy) hformal (hes hnone)

end

theorem Comparison.vouches_compile (ht : t.Genuine) (c : Comparison) :
    Vouches t c.compile fun _ => c.WellTyped t SmallExponent := by
  obtain ⟨left, relation, right⟩ := c
  refine (left.vouches_compile ht).bind fun x => (Vouches.load x).bind fun x' =>
    (Vouches.compileRelation relation).bind fun r => (right.vouches_compile ht).bind fun y =>
    (Vouches.load y).bind fun y' => .next (.inspect _) fun _ => (Vouches.faultIf _ _).bind fun _ =>
    (Vouches.faultIf _ _).bind fun _ => .pure ?_
  rintro hequality hcompatible ⟨hy, rfl⟩ hright rfl ⟨hx, rfl⟩ hleft
  refine .intro (hleft hx) (hright hy) (by rwa [Bool.not_eq_false'] at hcompatible) fun hreference => ?_
  rw [Bool.and_eq_false_imp, Bool.or_eq_true, Bool.not_eq_false'] at hequality
  exact Relation.isEquality_iff.1 (hequality hreference)

theorem Conjunction.vouches_compile (ht : t.Genuine) (whenFalse : Label) : (cs : Conjunction) →
    Vouches t (cs.compile whenFalse) fun _ => cs.WellTyped t SmallExponent
  | .comparison c => (c.vouches_compile ht).mono fun _ hc => .comparison hc
  | .and cs c =>
      (cs.vouches_compile ht whenFalse).bind fun _ => .next (.jumpWith _ whenFalse) fun _ =>
        .next .shift fun _ => (c.vouches_compile ht).mono fun _ hc hcs => .and hcs hc

theorem Condition.vouches_compileWith (ht : t.Genuine) (whenTrue whenFalse : Label) : (cs : Condition) →
    Vouches t (cs.compileWith whenTrue whenFalse) fun _ => cs.WellTyped t SmallExponent
  | .conjunction c =>
      (c.vouches_compile ht whenFalse).bind fun _ => .pure fun hc => .conjunction hc
  | .or cs c =>
      (cs.vouches_compileWith ht whenTrue whenFalse).bind fun (_, f) => .next (.jumpWith _ whenTrue) fun _ =>
        .next .shift fun _ => .next (.place f) fun _ => .next .newLabel fun f' =>
        (c.vouches_compile ht f').bind fun _ => .pure fun hc hcs => .or hcs hc

theorem Condition.vouches_compile (ht : t.Genuine) (cs : Condition) :
    Vouches t cs.compile fun _ => cs.WellTyped t SmallExponent :=
  .next .newLabel fun whenTrue => .next .newLabel fun whenFalse =>
    (cs.vouches_compileWith ht whenTrue whenFalse).bind fun _ => .pure id

/-! ### Whatever has a type is accepted -/

theorem Designator.IsMethod.succeeds_compile {d : Designator} {id : SymbolId} (h : d.IsMethod t id) :
    Succeeds t d.compile (· = ⟨.method id, (t.symbol id).type⟩) := by
  cases h with
  | name hn hkind =>
      rw [Designator.compile]
      exact (Succeeds.expectName _).known <| (Succeeds.find hn).known <|
        Succeeds.operandOf (by rw [Operand.ofSymbol?, hkind])

mutual

theorem Expr.HasType.succeeds_compile {e : Expr} {type : Ty} : e.HasType t SmallExponent type →
    Succeeds t e.compile (·.IsValue type)
  | .term hx => by
      rw [Expr.compile]
      exact hx.succeeds_compile
  | .neg hx => by
      rw [Expr.compile]
      refine .next .shift fun _ => hx.succeeds_compile.bind fun y hy =>
        (Succeeds.faultIf (by simp [hy.type_int]) _).next fun _ => (Succeeds.negate hy.1).mono fun z hz => ?_
      exact ⟨hz.1, hz.2 ▸ hy.2⟩
  | .add he hx => by
      rw [Expr.compile]
      exact he.succeeds_compile.bind fun y hy => .next .shift fun _ => (Succeeds.load hy.1).known <|
        hx.succeeds_compile.bind fun z hz => (Succeeds.load hz.1).known <|
        (Succeeds.requireInts hy.type_int hz.type_int).next fun _ => (Succeeds.emit _ _).next fun _ =>
        .pure hy.onStack

theorem Term.HasType.succeeds_compile {x : Term} {type : Ty} : x.HasType t SmallExponent type →
    Succeeds t x.compile (·.IsValue type)
  | .factor hf => by
      rw [Term.compile]
      exact hf.succeeds_compile
  | .mul hx hf => by
      rw [Term.compile]
      exact hx.succeeds_compile.bind fun y hy => .next .shift fun _ => (Succeeds.load hy.1).known <|
        hf.succeeds_compile.bind fun z hz => (Succeeds.load hz.1).known <|
        (Succeeds.requireInts hy.type_int hz.type_int).next fun _ => (Succeeds.emit _ _).next fun _ =>
        .pure hy.onStack
  | .power (k := k) hx hk => by
      rw [Term.compile]
      exact hx.succeeds_compile.bind fun y hy => .next .shift fun _ => (Succeeds.expectNumber 1 k).known <|
        (Succeeds.faultIf (by simp [hy.type_int]) _).next fun _ =>
        (Succeeds.faultIf (decide_eq_false (Int.not_lt.2 hk)) _).next fun _ => (Succeeds.load hy.1).known <|
        (Succeeds.emitAll _).next fun _ => .pure hy.onStack

theorem Factor.HasType.succeeds_compile {f : Factor} {type : Ty} : f.HasType t SmallExponent type →
    Succeeds t f.compile (·.IsValue type)
  | .designator hd => by
      rw [Factor.compile]
      exact hd.succeeds_compile.mono fun y hy => ⟨hy.1, hy.2 ▸ Ty.same_refl _⟩
  | .call hd hes hvoid => by
      rw [Factor.compile]
      exact hd.succeeds_compile.known <| (Succeeds.passArguments rfl (hes.succeeds_compile true)).next fun _ =>
        (Succeeds.faultIf (by simp [hvoid]) _).next fun _ => (Succeeds.call _).next fun _ =>
        .pure ⟨rfl, Ty.same_refl _⟩
  | .number => by
      rw [Factor.compile]
      exact .next .shift fun _ => .pure ⟨rfl, rfl⟩
  | .char => by
      rw [Factor.compile]
      exact .next .shift fun _ => .pure ⟨rfl, rfl⟩
  | .newObject hn => by
      rw [Factor.compile]
      exact .next .shift fun _ => (Succeeds.expectName _).known <| (Succeeds.findType hn).known <|
        .next (.inspect _) fun _ => (Succeeds.faultIf (by simp [Ty.shape]) _).next fun _ =>
        .next (.fields _) fun _ => (Succeeds.emit _ _).next fun _ => .pure ⟨rfl, Ty.same_refl _⟩
  | .newArray hn hsize => by
      rw [Factor.compile]
      exact .next .shift fun _ => (Succeeds.expectName _).known <| (Succeeds.findType hn).known <|
        .next .shift fun _ => hsize.succeeds_compile.bind fun y hy =>
        (Succeeds.faultIf (by simp [hy.type_int]) _).next fun _ => (Succeeds.load hy.1).next fun _ =>
        (Succeeds.emit _ _).next fun _ => (Succeeds.expect _).next fun _ =>
        (Succeeds.newArray _).bind fun array ⟨id, h⟩ => .pure ⟨rfl, h ▸ Ty.same_refl _⟩
  | .group he => by
      rw [Factor.compile]
      exact .next .shift fun _ => he.succeeds_compile.bind fun y hy =>
        (Succeeds.expect _).next fun _ => .pure hy

theorem Designator.HasType.succeeds_compile {d : Designator} {type : Ty} : d.HasType t SmallExponent type →
    Succeeds t d.compile fun y => y.loadCode?.isSome = true ∧ y.type = type
  | .name hn hkind => by
      rw [Designator.compile]
      refine (Succeeds.expectName _).known <| (Succeeds.find hn).known ?_
      rcases hkind with hkind | hkind
      · refine (Succeeds.operandOf (by rw [Operand.ofSymbol?, hkind])).mono fun y hy => hy ▸ ⟨?_, rfl⟩
        split <;> rfl
      · exact (Succeeds.operandOf (by rw [Operand.ofSymbol?, hkind])).mono fun y hy => hy ▸ ⟨rfl, rfl⟩
  | .field hd hn => by
      rw [Designator.compile]
      refine hd.succeeds_compile.bind fun ⟨_, _⟩ ⟨hy, htype⟩ => ?_
      obtain rfl := htype
      exact .next (.inspect _) fun _ => (Succeeds.faultIf rfl _).next fun _ => .next .shift fun _ =>
        (Succeeds.load hy).known <| (Succeeds.expectName _).known <| (Succeeds.findField hn).known <|
        (Succeeds.symbol _).known <| .pure ⟨rfl, rfl⟩
  | .element hd hindex => by
      rw [Designator.compile]
      refine hd.succeeds_compile.bind fun ⟨_, _⟩ ⟨hy, htype⟩ => ?_
      obtain rfl := htype
      exact .next .shift fun _ => (Succeeds.load hy).known <| .next (.inspect _) fun _ =>
        (Succeeds.faultIf rfl _).next fun _ =>
        hindex.succeeds_compile.bind fun i hi => (Succeeds.faultIf (by simp [hi.type_int]) _).next fun _ =>
        (Succeeds.load hi.1).next fun _ => (Succeeds.expect _).next fun _ => .pure ⟨rfl, rfl⟩

theorem ArgumentsFit.succeeds_compile {es : List Expr} {formals : List Ty} (first : Bool) :
    ArgumentsFit t SmallExponent es formals → Succeeds t (compileArguments first es formals) (· = [])
  | .nil => by
      rw [compileArguments]
      exact .pure rfl
  | .cons he hformal hes => by
      rw [compileArguments]
      refine .next (.shiftUnless first) fun _ => he.succeeds_compile.bind fun y hy =>
        (Succeeds.load hy.1).known <| (Succeeds.passArgument ?_ _).known (hes.succeeds_compile false)
      -- the argument is of a type that is the same as the derived one
      exact Ty.assignable_congr hy.onStack.2 (Ty.same_refl _) ▸ hformal

end

theorem Comparison.WellTyped.succeeds_compile {c : Comparison} (h : c.WellTyped t SmallExponent) :
    Succeeds t c.compile fun _ => True := by
  obtain ⟨hleft, hright, hcompatible, hequality⟩ := h
  refine hleft.succeeds_compile.bind fun x hx => (Succeeds.load hx.1).known <|
    (Succeeds.compileRelation _).known <| hright.succeeds_compile.bind fun y hy =>
    (Succeeds.load hy.1).known <| .next (.inspect _) fun _ => (Succeeds.faultIf ?_ _).next fun _ =>
    (Succeeds.faultIf ?_ _).next fun _ => .pure trivial
  · rw [Bool.not_eq_false', ← Ty.compatible_congr hx.onStack.2 hy.onStack.2, hcompatible]
  · rw [Bool.and_eq_false_imp, Bool.or_eq_true, Bool.not_eq_false', ← Ty.isReference_eq_of_same hx.onStack.2,
      ← Ty.isReference_eq_of_same hy.onStack.2]
    exact fun h => Relation.isEquality_iff.2 (hequality h)

theorem Conjunction.WellTyped.succeeds_compile (whenFalse : Label) {cs : Conjunction}
    (h : cs.WellTyped t SmallExponent) : Succeeds t (cs.compile whenFalse) fun _ => True := by
  induction h with
  | comparison hc => exact hc.succeeds_compile
  | and _ hc ih =>
      exact ih.next fun _ => .next (.jumpWith _ whenFalse) fun _ => .next .shift fun _ => hc.succeeds_compile

theorem Condition.WellTyped.succeeds_compileWith (whenTrue whenFalse : Label) {cs : Condition}
    (h : cs.WellTyped t SmallExponent) : Succeeds t (cs.compileWith whenTrue whenFalse) fun _ => True := by
  induction h with
  | conjunction hc => exact (hc.succeeds_compile whenFalse).next fun _ => .pure trivial
  | or _ hc ih =>
      exact ih.next fun (_, f) => .next (.jumpWith _ whenTrue) fun _ => .next .shift fun _ =>
        .next (.place f) fun _ => .next .newLabel fun f' => (hc.succeeds_compile f').next fun _ => .pure trivial

theorem Condition.WellTyped.succeeds_compile {cs : Condition} (h : cs.WellTyped t SmallExponent) :
    Succeeds t cs.compile fun _ => True :=
  .next .newLabel fun whenTrue => .next .newLabel fun whenFalse =>
    (h.succeeds_compileWith whenTrue whenFalse).next fun _ => .pure trivial

/-! ### Reading and checking -/

/-- What is accepted when it is loaded has the type of the operand. -/
theorem Expr.vouches_load (ht : t.Genuine) (e : Expr) :
    Vouches t (e.compile >>= load) fun y => e.HasType t SmallExponent y.type := by
  refine (e.vouches_compile ht).bind fun y => (Vouches.load y).mono ?_
  rintro _ ⟨hy, rfl⟩ he
  exact he hy

/-- What has a type is accepted, and the operand has this type. -/
theorem Expr.HasType.succeeds_load {e : Expr} {type : Ty} (h : e.HasType t SmallExponent type) :
    Succeeds t (e.compile >>= load) fun y => Ty.same type y.type = true :=
  h.succeeds_compile.bind fun _ hy => (Succeeds.load hy.1).mono fun _ hz => hz ▸ hy.2

end Tree

/-- A state that a parse of the source has reached without diagnostics. -/
structure Compiler.Untroubled (s : Compiler) (source : TokenSource) (minDistance : Nat) : Prop
    extends s.Reached where
  diagnostics : source.diagnostics minDistance s.log = #[]

namespace Compiler.Untroubled

variable {s : Compiler} {source : TokenSource} {minDistance : Nat} {α : Type} {x : CompilerM α} {P : α → Prop}

/-- There are no diagnostics after the step if and only if no fault was logged. -/
theorem diagnostics_iff (hs : s.Untroubled source minDistance) (hsource : source.faults = [])
    (hlogs : s.Logs (x s).2) : source.diagnostics minDistance (x s).2.log = #[] ↔ ¬ (x s).2.Faulty :=
  TokenSource.diagnostics_eq_empty_iff hsource (hlogs.orderly hs.orderly)

theorem not_faulty (hs : s.Untroubled source minDistance) : ¬ s.Faulty :=
  TokenSource.not_faulty hs.orderly hs.diagnostics

theorem vouches (hs : s.Untroubled source minDistance) (hsource : source.faults = [])
    (hx : Vouches s.table x P) (h : source.diagnostics minDistance (x s).2.log = #[]) : P (x s).1 := by
  obtain ⟨-, hlogs, hp⟩ := hx s (.refl s.table)
  exact hp ((hs.diagnostics_iff hsource hlogs).1 h)

theorem succeeds (hs : s.Untroubled source minDistance) (hsource : source.faults = [])
    (hx : Succeeds s.table x P) : source.diagnostics minDistance (x s).2.log = #[] ∧ P (x s).1 := by
  obtain ⟨-, hlogs, hclean, hp⟩ := hx s (.refl s.table)
  exact ⟨(hs.diagnostics_iff hsource hlogs).2 (hclean hs.not_faulty), hp⟩

end Compiler.Untroubled

namespace Tree

open Grammar

section Untroubled

variable {s : Compiler} {source : TokenSource} {minDistance : Nat}

theorem Expr.silent_iff (hs : s.Untroubled source minDistance) (hsource : source.faults = []) (e : Expr) :
    let r := (e.compile >>= load) s
    (source.diagnostics minDistance r.2.log = #[] ↔ ∃ type, e.HasType s.table SmallExponent type) ∧
      (source.diagnostics minDistance r.2.log = #[] → e.HasType s.table SmallExponent r.1.type) ∧
      ∀ type, e.HasType s.table SmallExponent type → Ty.same type r.1.type = true := by
  have hsound := hs.vouches hsource (e.vouches_load hs.table.genuine)
  refine ⟨⟨fun h => ⟨_, hsound h⟩, fun ⟨type, htype⟩ => ?_⟩, hsound, fun type htype => ?_⟩
  · exact (hs.succeeds hsource htype.succeeds_load).1
  · exact (hs.succeeds hsource htype.succeeds_load).2

theorem Condition.silent_iff (hs : s.Untroubled source minDistance) (hsource : source.faults = [])
    (c : Condition) : source.diagnostics minDistance (c.compile s).2.log = #[] ↔
      c.WellTyped s.table SmallExponent :=
  ⟨hs.vouches hsource (c.vouches_compile hs.table.genuine),
    fun hc => (hs.succeeds hsource hc.succeeds_compile).1⟩

/-- The tokens of an expression are read, compiled and loaded without a diagnostic if and only if the expression
has a type, and then the operand has this type. The tokens of a condition are read and compiled without a
diagnostic if and only if the condition is well typed. -/
theorem silent_iff_hasType (hs : s.Untroubled source minDistance) (hsource : source.faults = []) :
    (∀ ts us, Derives (.rule .expr) ts → startsWith continuesExpr us = false →
      (readExpr (ts ++ us)).rest = us ∧
      let e := (readExpr (ts ++ us)).value
      let r := (e.compile >>= load) s
      (source.diagnostics minDistance r.2.log = #[] ↔ ∃ type, e.HasType s.table SmallExponent type) ∧
      (source.diagnostics minDistance r.2.log = #[] → e.HasType s.table SmallExponent r.1.type) ∧
      ∀ type, e.HasType s.table SmallExponent type → Ty.same type r.1.type = true) ∧
    ∀ ts us, Derives (.rule .condition) ts → startsWith continuesCondition us = false →
      (readCondition (ts ++ us)).rest = us ∧
      let c := (readCondition (ts ++ us)).value
      (source.diagnostics minDistance (c.compile s).2.log = #[] ↔ c.WellTyped s.table SmallExponent) := by
  constructor
  · intro ts us hts hus
    exact ⟨(finds_readExpr ⟨ts, hts, rfl⟩ hus).2, (readExpr (ts ++ us)).value.silent_iff hs hsource⟩
  · intro ts us hts hus
    exact ⟨(finds_readCondition ⟨ts, hts, rfl⟩ hus).2, (readCondition (ts ++ us)).value.silent_iff hs hsource⟩

end Untroubled

theorem derives_expr {ts : List Token} (hrest : (readExpr ts).rest = []) (h : (readExpr ts).value.Intact) :
    Derives (.rule .expr) ts :=
  takes_nil.1 (hrest ▸ follows_readExpr ts h)

theorem derives_condition {ts : List Token} (hrest : (readCondition ts).rest = [])
    (h : (readCondition ts).value.Intact) : Derives (.rule .condition) ts :=
  takes_nil.1 (hrest ▸ follows_readCondition ts h)

/-- The tokens of `c.x ** 2`. -/
def squareTokens : List Token :=
  [⟨.ident, .start, "c", 0⟩, ⟨.period, .start, "", 0⟩, ⟨.ident, .start, "x", 0⟩, ⟨.power, .start, "", 0⟩,
    ⟨.number, .start, "", 2⟩]

/-- The tokens of `c == 1`. -/
def mixedTokens : List Token :=
  [⟨.ident, .start, "c", 0⟩, ⟨.equal, .start, "", 0⟩, ⟨.number, .start, "", 1⟩]

/-- In the main method of the ledger the square of a field has a type, and an object must not be compared with a
number. -/
theorem silent_iff_hasType_ledger : inLedger.Untroubled (.ofTokens []) 0 ∧
    Derives (.rule .expr) squareTokens ∧ Derives (.rule .condition) mixedTokens ∧
    (∃ type, (readExpr squareTokens).value.HasType inLedger.table SmallExponent type) ∧
    ¬ (readCondition mixedTokens).value.WellTyped inLedger.table SmallExponent := by
  have hreached := inBody_inLedger.reached
  have hclean : ¬ inLedger.Faulty := by decide +kernel
  have hs : inLedger.Untroubled (.ofTokens []) 0 :=
    ⟨hreached, (TokenSource.diagnostics_eq_empty_iff rfl hreached.orderly).2 hclean⟩
  have hsquare : Derives (.rule .expr) squareTokens := by
    have hvalue : (readExpr squareTokens).value = .term (.power (.factor (.designator
        (.field (.name (some "c")) (some "x")))) (some 2)) := by cbv
    refine derives_expr (by cbv) ?_
    simp [hvalue, Expr.Intact, Term.Intact, Factor.Intact, Designator.Intact]
  have hmixed : Derives (.rule .condition) mixedTokens := by
    have hvalue : (readCondition mixedTokens).value = .conjunction (.comparison
        ⟨.term (.factor (.designator (.name (some "c")))), some .eq, .term (.factor (.number 1))⟩) := by cbv
    refine derives_condition (by cbv) ?_
    simp [hvalue, Condition.Intact, Conjunction.Intact, Comparison.Intact, Expr.Intact, Term.Intact,
      Factor.Intact, Designator.Intact]
  obtain ⟨hexpr, hcondition⟩ := silent_iff_hasType hs rfl
  obtain ⟨-, hiff, -⟩ := hexpr squareTokens [] hsquare rfl
  obtain ⟨-, hiff'⟩ := hcondition mixedTokens [] hmixed rfl
  have hsilent : (TokenSource.ofTokens []).diagnostics 0
      (((readExpr squareTokens).value.compile >>= load) inLedger).2.log = #[] := by decide +kernel
  have hshown : (TokenSource.ofTokens []).diagnostics 0
      ((readCondition mixedTokens).value.compile inLedger).2.log ≠ #[] := by decide +kernel
  exact ⟨hs, hsquare, hmixed, hiff.1 hsilent, mt hiff'.2 hshown⟩

/-- The tokens of a power with a negative exponent. There are such tokens, but no text has them. -/
def negativePower : List Token :=
  [⟨.number, .start, "", 2⟩, ⟨.power, .start, "", 0⟩, ⟨.number, .start, "", -1⟩]

/-- An exponent is accepted also if it is negative. -/
theorem silent_of_negativePower :
    Compiler.initial.Untroubled (.ofTokens negativePower) defaultDistance ∧
      Derives (.rule .expr) negativePower ∧
      let e := (readExpr negativePower).value
      (TokenSource.ofTokens negativePower).diagnostics defaultDistance
          ((e.compile >>= load) Compiler.initial).2.log = #[] ∧
        ¬ ∃ type, e.HasType Compiler.initial.table (fun k => 0 ≤ k ∧ k ≤ 255) type := by
  have hvalue : (readExpr negativePower).value = .term (.power (.factor (.number 2)) (some (-1))) := by cbv
  refine ⟨⟨.initial, rfl⟩, derives_expr (by cbv) ?_, by decide +kernel, ?_⟩
  · simp [hvalue, Expr.Intact, Term.Intact, Factor.Intact]
  · rw [hvalue]
    rintro ⟨type, htype⟩
    cases htype with
    | term hx => cases hx with
      | power _ hk => exact absurd hk.1 (by decide)

end Tree

end MicroJava
