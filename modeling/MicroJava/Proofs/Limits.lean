import MicroJava.Proofs.Bodies
import MicroJava.Proofs.Ranges

/-!
# The tables in which statements are compiled

A state is in the body of a method if the head of the method has been compiled and nothing but parts of
expressions and statements since (`Compiler.InBody`). Without a fault so far the symbol table is complete
there, and the variables that it knows are no more than a method and a program may have
(`Compiler.InBody.limited`).
-/

namespace MicroJava

open Compiler MicroJava.Tree

/-- What is known of a table in which the statements of a method are compiled: nothing that it mentions
is missing, and there are no more variables than there may be. -/
structure SymbolTable.Limited (localCount dataSize : Nat) (t : SymbolTable) : Prop where
  closed : t.Closed
  ranged : t.Ranged (fun _ => True) localCount dataSize
  locals : localCount ≤ maxLocals
  globals : dataSize ≤ maxGlobals

/-- The state before the statements of a method. -/
def Tree.MethodDecl.enter (d : MethodDecl) (s : Compiler) : Compiler := (d.compileHead s).2

theorem Tree.MethodDecl.sound_enter (p : Program) (n : Nat) (d : MethodDecl) :
    (d.enter (p.after n)).Sound := by
  obtain ⟨_, h⟩ := d.headed_compileHead (p.sound_after n)
  exact h.sound

/-- The state is one in the body of a method that follows the first methods of some program. -/
def Compiler.InBody (s : Compiler) : Prop :=
  ∃ (p : Program) (n : Nat) (d : MethodDecl), Steps Item.IsInner (d.enter (p.after n)) s

/-- What is compiled in the body of a method adds types at most. -/
theorem Compiler.Steps.closed {allowed : Item → Prop} {s s' : Compiler} (h : Steps allowed s s')
    (hs : s.table.Closed) : s'.table.Closed := by
  induction h with
  | refl => exact hs
  | tail _ h ih =>
      cases h with
      | addType => exact ih.addType _
      | _ => exact ih

/-- In the body of a method without a fault so far there are no more variables than there may be. -/
theorem Compiler.InBody.limited {s : Compiler} (h : s.InBody) (hclean : ¬ s.Faulty) :
    ∃ localCount dataSize, s.table.Limited localCount dataSize := by
  obtain ⟨p, n, d, hsteps⟩ := h
  rw [MethodDecl.enter] at hsteps
  have hzero : (fun _ : Int => True) 0 := trivial
  obtain ⟨_, hhead⟩ := d.headed_compileHead (p.sound_after n)
  have hclean : ¬ (d.compileHead (p.after n)).2.Faulty := mt hsteps.logs.faulty hclean
  have hready := p.ready_after hzero (fun d _ => d.literals_of_forall fun _ => trivial) n
    (mt hhead.log.faulty hclean)
  obtain ⟨hslotted, -, hinside⟩ := d.inside_compileHead hzero hready hclean
  obtain ⟨-, hsmall, -⟩ := (d.relates_compileHead (P := fun _ => True) (Q := p.HasClass) hzero
    (p.after n)).2 hclean
  have hgains := Gains.of_steps (P := fun _ => True) (Q := p.HasClass) hsteps
  refine ⟨d.variableCount, p.variableCount, hsteps.closed hhead.sound.table,
    ⟨fun _ => trivial, hgains.slotted hslotted, ?_, ?_⟩, hsmall, hready.small⟩
  · exact hgains.count.trans hinside.current
  · rw [hgains.outer]
    exact hinside.outer

end MicroJava
