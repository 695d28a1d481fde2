import Mathlib.Data.List.Induction
import MicroJava.Compiler.State

/-!
# What was declared in a scope

A `Naming` is one declaration of a name. Of the namings in a scope only the first one of each name
counts, which `firstsBy` keeps. `Scope.Holds c ns` says that the scope `c` is what is left of the
namings `ns`: a name stands for its first declaration, and the first declarations are listed and their
variables counted. Declaring a name adds one naming (`Scope.Holds.insert`).

The steps of a compilation that work on scopes and names are described at the end: which number they
yield, what becomes of the table and what is logged.
-/

namespace MicroJava

/-! ### First elements -/

section FirstsBy

variable {α κ : Type} [DecidableEq κ] {key : α → κ}

/-- The elements of a list whose keys no element before them has. -/
def firstsBy (key : α → κ) (as : List α) : List α :=
  as.eraseDupsBy fun a b => key a == key b

theorem eraseDupsBy_loop_concat (r : α → α → Bool) (as bs : List α) (a : α) :
    List.eraseDupsBy.loop r (as ++ [a]) bs =
      if (List.eraseDupsBy.loop r as bs).any (r a) then List.eraseDupsBy.loop r as bs
      else List.eraseDupsBy.loop r as bs ++ [a] := by
  have hcons (b : α) (as bs : List α) : List.eraseDupsBy.loop r (b :: as) bs =
      List.eraseDupsBy.loop r as (bif bs.any (r b) then bs else b :: bs) := by
    rw [List.eraseDupsBy.loop]
    cases bs.any (r b) <;> rfl
  induction as generalizing bs with
  | nil =>
      simp only [List.nil_append, List.eraseDupsBy.loop, List.any_reverse]
      cases bs.any (r a) <;> simp
  | cons b as ih =>
      rw [List.cons_append, hcons, hcons]
      exact ih _

theorem firstsBy_concat_of_any (as : List α) (a : α) : firstsBy key (as ++ [a]) =
    if key a ∈ (firstsBy key as).map key then firstsBy key as else firstsBy key as ++ [a] := by
  refine (eraseDupsBy_loop_concat _ as [] a).trans (if_congr ?_ rfl rfl)
  simp only [List.any_eq_true, beq_iff_eq, List.mem_map]
  exact exists_congr fun b => and_congr_right fun _ => eq_comm

/-- All keys are kept. -/
theorem mem_map_firstsBy {as : List α} {k : κ} : k ∈ (firstsBy key as).map key ↔ k ∈ as.map key := by
  induction as using List.reverseRecOn generalizing k with
  | nil => rfl
  | append_singleton as a ih =>
      rw [firstsBy_concat_of_any]
      split
      · next h =>
          rw [ih] at h ⊢
          simp only [List.map_append, List.map_singleton, List.mem_append, List.mem_singleton]
          exact ⟨.inl, fun hk => hk.elim id fun heq => heq ▸ h⟩
      · simp only [List.map_append, List.mem_append, ih]

theorem firstsBy_concat (as : List α) (a : α) : firstsBy key (as ++ [a]) =
    if key a ∈ as.map key then firstsBy key as else firstsBy key as ++ [a] := by
  rw [firstsBy_concat_of_any]
  simp only [mem_map_firstsBy]

/-- No key is kept twice. -/
theorem nodup_map_firstsBy (key : α → κ) (as : List α) : ((firstsBy key as).map key).Nodup := by
  induction as using List.reverseRecOn with
  | nil => exact .nil
  | append_singleton as a ih =>
      rw [firstsBy_concat_of_any]
      split
      · exact ih
      · next h =>
          rw [List.map_append, List.nodup_append]
          refine ⟨ih, by simp, fun k hk k' hk' heq => h ?_⟩
          rwa [← List.mem_singleton.1 hk', ← heq]

theorem mem_of_mem_firstsBy {as : List α} {a : α} (h : a ∈ firstsBy key as) : a ∈ as := by
  induction as using List.reverseRecOn with
  | nil => exact absurd h List.not_mem_nil
  | append_singleton as b ih =>
      rw [firstsBy_concat] at h
      split at h
      · exact List.mem_append_left _ (ih h)
      · exact (List.mem_append.1 h).elim (fun h => List.mem_append_left _ (ih h))
          (List.mem_append_right _)

/-- What comes later takes nothing away. -/
theorem firstsBy_prefix_append (as bs : List α) : firstsBy key as <+: firstsBy key (as ++ bs) := by
  induction bs using List.reverseRecOn with
  | nil => simp
  | append_singleton bs b ih =>
      rw [← List.append_assoc, firstsBy_concat]
      split
      · exact ih
      · exact ih.trans (List.prefix_append _ _)

end FirstsBy

/-! ### Scopes -/

/-- One declaration of a name: the symbol that was made, and whether it is a variable. -/
structure Naming where
  name : String
  id : SymbolId
  isVariable : Bool

/-- The symbol that was declared first as `name`. -/
def Naming.earliest? (name : String) (ns : List Naming) : Option SymbolId :=
  (ns.find? fun n => n.name == name).map Naming.id

theorem Naming.earliest?_eq_none_iff {name : String} {ns : List Naming} :
    earliest? name ns = none ↔ name ∉ ns.map Naming.name := by
  simp [earliest?]

namespace Scope

/-- A scope in which names were declared one after the other. -/
structure Holds (c : Scope) (ns : List Naming) : Prop where
  find : ∀ name, c.find? name = Naming.earliest? name ns
  locals : c.locals.toList = (firstsBy Naming.name ns).map Naming.id
  count : c.variableCount = (firstsBy Naming.name ns).countP Naming.isVariable

variable {c : Scope} {ns : List Naming}

theorem holds_empty (id : ScopeId) : Holds { empty with id } [] :=
  ⟨fun _ => rfl, rfl, rfl⟩

/-- The names of a scope are those that were declared in it. -/
theorem Holds.declares_iff (h : c.Holds ns) {name : String} :
    c.declares name = true ↔ name ∈ ns.map Naming.name := by
  rw [declares, h.find, ← Option.not_isNone, Bool.not_eq_true', Option.isNone_eq_false_iff,
    Option.isSome_iff_ne_none, ne_eq, Naming.earliest?_eq_none_iff, not_not]

theorem Holds.insert (h : c.Holds ns) (n : Naming) :
    (c.insert n.name n.id n.isVariable).Holds (ns ++ [n]) := by
  refine ⟨fun name => ?_, ?_, ?_⟩
  · rw [find?_insert, h.find, h.find, Naming.earliest?, Naming.earliest?, Naming.earliest?,
      List.find?_append, List.find?_singleton]
    by_cases hname : name = n.name
    · subst hname
      cases ns.find? fun m => m.name == n.name <;> simp
    · simp [hname, Ne.symm hname]
  all_goals rw [firstsBy_concat]
  · by_cases hmem : n.name ∈ ns.map Naming.name
    · rw [insert_of_declares (h.declares_iff.2 hmem), if_pos hmem, h.locals]
    · have hnew : c.declares n.name = false := Bool.eq_false_iff.2 (mt h.declares_iff.1 hmem)
      rw [locals_insert_of_not_declares hnew, if_neg hmem, Array.toList_push, h.locals,
        List.map_append, List.map_singleton]
  · by_cases hmem : n.name ∈ ns.map Naming.name
    · rw [insert_of_declares (h.declares_iff.2 hmem), if_pos hmem, h.count]
    · have hnew : ¬ c.declares n.name = true := mt h.declares_iff.1 hmem
      rw [Scope.insert, if_neg hnew, if_neg hmem, List.countP_append, ← h.count]
      cases hvariable : n.isVariable <;> simp [hvariable]

end Scope

/-! ### Steps -/

namespace Compiler

theorem table_faultIf (c : Bool) (m : Message) (s : Compiler) : (faultIf c m s).2.table = s.table := by
  cases c <;> rfl

theorem log_faultIf (c : Bool) (m : Message) (s : Compiler) :
    (faultIf c m s).2.log = if c then s.log.push (.fault m) else s.log := by
  cases c <;> rfl

theorem fst_declare (kind : SymbolKind) (name : String) (type : Ty) (s : Compiler) :
    (declare kind name type s).1 = s.table.nextSymbol :=
  congrArg SymbolTable.nextSymbol (table_faultIf _ _ (scope s).2)

theorem table_declare (kind : SymbolKind) (name : String) (type : Ty) (s : Compiler) :
    (declare kind name type s).2.table = s.table.declare kind name type :=
  congrArg (·.declare kind name type) (table_faultIf _ _ (scope s).2)

/-- It is a fault if the name is taken in the innermost scope. -/
theorem log_declare (kind : SymbolKind) (name : String) (type : Ty) (s : Compiler) :
    (declare kind name type s).2.log =
      if s.table.current.declares name then s.log.push (.fault (.duplicateName name)) else s.log :=
  log_faultIf _ _ _

/-- What a name stands for is found. It is a fault if it stands for nothing. -/
theorem find_eq (name : String) (s : Compiler) :
    (find name s).1 = (s.table.lookup? name).getD SymbolTable.noSymbolId ∧
      (find name s).2.table = s.table ∧
      (find name s).2.log =
        if (s.table.lookup? name).isSome then s.log else s.log.push (.fault (.unknownName name)) := by
  have hget (f : Compiler → CompilerM SymbolId) (t : Compiler) : (MonadState.get >>= f) t = f t t := rfl
  have hrefer (rs : List Reference) (f : Unit → CompilerM SymbolId) (t : Compiler) :
      (refer rs >>= f) t = f () (refer rs t).2 := rfl
  have htable (rs : List Reference) (t : Compiler) : (refer rs t).2.table = t.table := rfl
  rw [find, hget, hrefer, hget, htable]
  cases s.table.lookup? name <;> exact ⟨rfl, rfl, rfl⟩

end Compiler

end MicroJava
