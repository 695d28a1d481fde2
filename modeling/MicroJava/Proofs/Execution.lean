import MicroJava.Proofs.Balance
import MicroJava.Proofs.StatementCode

/-!
# Methods are executed as their source says

The code of a method that was compiled without a fault does what the flow of its statements says
(`Compiled.follows`). So however its conditions are answered, control comes by the same statements
and conditions in the same order as the structured execution of the source
(`TokenSource.compile_follows`): a loop asks its condition anew after each pass through its body,
`break` goes on behind the innermost loop, a return leaves the method, and whoever reaches the end of
the statements finds `exit` and `return` in a method without a value and a trap otherwise.
-/

namespace MicroJava

open MicroJava.Tree

/-- The pieces of the flow `g` are those of the statements of a method, and their code stands one
after the other between the `enter` at `entry` and the end of the method at `stop`. -/
structure MethodCode.Follows (m : MethodCode) (known : SymbolTable) (code : List Instruction)
    (target : Nat → Label → Int) (g : Flow Site) (entry stop : Nat) : Prop where
  enters : ∃ operands rest, m.code = ⟨entry, .enter, operands⟩ :: rest
  ends : ∃ front, m.code = front ++ if m.decl.type = none
    then [⟨stop, .exit, []⟩, ⟨stop + Opcode.exit.size, .ret, []⟩] else [⟨stop, .trap, [1]⟩]
  pieces : g.map Site.piece = flowOfStatements m.decl.body
  row : Site.Row (entry + Opcode.enter.size) stop g.pieces
  holds : ∀ x ∈ g.pieces, x.Holds known code target
  tracks : Tracks code g.pieces g (entry + Opcode.enter.size) stop none

namespace Compiled

variable {ms : List Member} {bs : List Body} {s : Compiler} {b : Body}

/-- The instructions of the code, method by method. -/
theorem decoded_items (h : Compiled ms bs s) : Item.decoded s.code.leadsTo 0 s.items.toList =
    (bs.map (Body.toMethodCode s.code.leadsTo)).flatMap MethodCode.code := by
  have hdecode := h.decode_code
  rw [h.sound.assembles.code, Instruction.decode_bytes h.sound.assembles.wellFormed] at hdecode
  exact congrArg Array.toList (Except.ok.inj hdecode)

theorem stands_code (h : Compiled ms bs s) (hb : b ∈ bs) :
    Item.Stands s.items.toList b.method.entry b.code := by
  obtain ⟨bs₁, bs₂, rfl⟩ := List.append_of_mem hb
  refine ⟨bs₁.flatMap Body.code, bs₂.flatMap Body.code, ?_, h.entries bs₁ b bs₂ rfl⟩
  rw [h.items, List.flatMap_append, List.flatMap_cons, List.append_assoc]

end Compiled

/-- The instructions at the end of a body. -/
theorem Body.exists_end (target : Nat → Label → Int) (b : Body)
    (hvoid : b.method.result = .void ↔ b.decl.type = none) :
    ∃ front, (b.toMethodCode target).code = front ++ if b.decl.type = none
      then [⟨b.method.entry + Item.codeSize b.front, .exit, []⟩,
        ⟨b.method.entry + Item.codeSize b.front + Opcode.exit.size, .ret, []⟩]
      else [⟨b.method.entry + Item.codeSize b.front, .trap, [1]⟩] := by
  refine ⟨Item.decoded target b.method.entry b.front, ?_⟩
  change Item.decoded target b.method.entry b.code = _
  by_cases h : b.method.result = .void
  · rw [b.code_of_void h, Item.decoded_append, if_pos (hvoid.1 h)]
    rfl
  · rw [b.code_of_ne_void h, Item.decoded_append, if_neg (hvoid.not.1 h)]
    rfl

namespace Compiled

variable {ms : List Member} {bs : List Body} {s : Compiler} {b : Body}

/-- The code of a method whose statements were compiled without a fault does what their flow says. -/
theorem follows (h : Compiled ms bs s) (hb : b ∈ bs) (hbody : b.Clean bs s.items.toList) :
    ∃ known g entry stop, (b.toMethodCode s.code.leadsTo).Follows known
      (Item.decoded s.code.leadsTo 0 s.items.toList) s.code.leadsTo g entry stop := by
  obtain ⟨t, ht, -, hmethods, hsize, hw, hclean⟩ := hbody.ran
  have hmakes := makes_compileStatements (h.callsIn ht hmethods) none b.method.result b.decl.body
  obtain ⟨-, -, hmakes⟩ := hmakes t (.refl _)
  obtain ⟨is, hw', g, hg, hmap⟩ := hmakes hclean
  obtain rfl := hw.unique hw'
  have hoffset : t.offset = b.method.entry + Opcode.enter.size := hsize
  rw [hoffset] at hg
  have hsettled : s.code.Settled s.items.toList b.method.entry
      (b.method.entry + Item.codeSize b.code) := ⟨h.sound.assembles, hbody.near⟩
  have hstands : Item.Stands s.items.toList (b.method.entry + Opcode.enter.size) _ :=
    (h.stands_code hb).tail
  have hcode : Item.codeSize b.code = Opcode.enter.size + (Item.codeSize b.items +
      Item.codeSize ((endCode b.method.result).map Operation.item)) := by
    rw [← Item.codeSize_append]
    rfl
  have hstop : b.method.entry + Item.codeSize b.front =
      b.method.entry + Opcode.enter.size + Item.codeSize b.items := (Nat.add_assoc _ _ _).symm
  have hosts : s.code.Hosts s.items.toList g.pieces (b.method.entry + Opcode.enter.size) b.items
      g.pieces :=
    ⟨hsettled.mono (Nat.le_add_right _ _) (by omega), hstands.left, .refl _ _ _⟩
  have hrealizes : FlowCode.Realizes t.table _ _ g.pieces g _ _ none := hg.realizes hosts (by simp)
  refine ⟨t.table, g, b.method.entry, b.method.entry + Item.codeSize b.front, ⟨_, _, rfl⟩,
    b.exists_end _ hbody.void, hmap, ?_, hrealizes.holds, ?_⟩
  · rw [hstop]
    exact hg.row
  · rw [hstop]
    exact hrealizes.tracks

end Compiled

/-- Whatever the answers to its conditions are, control comes by the pieces of a method in the order
of the structured execution, takes as many answers, and ends where that does. -/
theorem MethodCode.Follows.exists_run {m : MethodCode} {known : SymbolTable}
    {code : List Instruction} {target : Nat → Label → Int} {g : Flow Site} {entry stop : Nat}
    (h : m.Follows known code target g entry stop) (answers : List Bool) :
    ∃ c : Control, Control.Reaches code g.pieces ⟨entry + Opcode.enter.size, answers, []⟩ c ∧
      c.visited = (g.run answers).visited ∧
      c.visited.map Site.piece = ((flowOfStatements m.decl.body).run answers).visited ∧
      c.answers = ((flowOfStatements m.decl.body).run answers).rest ∧
      (g.run answers).ending.At code g.pieces stop none c := by
  obtain ⟨c, hreaches, hanswers, hvisited, hending⟩ := h.tracks answers []
  have hmaps := Flow.maps_run Site.piece g answers
  rw [h.pieces] at hmaps
  rw [List.nil_append] at hvisited
  refine ⟨c, hreaches, hvisited, ?_, hanswers.trans hmaps.rest.symm, hending⟩
  rw [hvisited, hmaps.visited]

namespace TokenSource

/-- Every method that is compiled without a fault of its own is executed as its source says, however
its conditions are answered. If there are no diagnostics, these are all methods. -/
theorem compile_follows (source : TokenSource) (minDistance : Nat) :
    ∃ c, source.compile minDistance = .ok c ∧
      (c.diagnostics = #[] → ∀ before d after,
        (Program.read source.tokens).members = before ++ .method d :: after →
        d.Faultless ((Program.read source.tokens).after before.length)) ∧
      ∃ (ms : List MethodCode) (target : Nat → Label → Int),
        ms.map MethodCode.decl = (Program.read source.tokens).members.filterMap Member.method? ∧
        ms.map MethodCode.info = c.debug.methods.toList ∧
        Instruction.decode c.image.code.toList = .ok (ms.flatMap MethodCode.code).toArray ∧
        ∀ before d after, (Program.read source.tokens).members = before ++ .method d :: after →
          d.Faultless ((Program.read source.tokens).after before.length) →
          ∃ ms₁ m ms₂, ms = ms₁ ++ m :: ms₂ ∧
            ms₁.map MethodCode.decl = before.filterMap Member.method? ∧ m.decl = d ∧
            ∃ known g entry stop,
              m.Follows known (ms.flatMap MethodCode.code) target g entry stop ∧
              ∀ answers, ∃ c' : Control, Control.Reaches (ms.flatMap MethodCode.code) g.pieces
                  ⟨entry + Opcode.enter.size, answers, []⟩ c' ∧
                c'.visited = (g.run answers).visited ∧
                c'.visited.map Site.piece = ((flowOfStatements m.decl.body).run answers).visited ∧
                c'.answers = ((flowOfStatements m.decl.body).run answers).rest ∧
                (g.run answers).ending.At (ms.flatMap MethodCode.code) g.pieces stop none c' := by
  rcases (Program.read source.tokens).compiled_compile with ⟨bs, h, -, hmethods⟩
  let target := source.compiler.code.leadsTo
  refine ⟨_, source.compile_eq_ok minDistance, fun hnone before d after heq => ?_,
    bs.map (Body.toMethodCode target), target, ?_, ?_, h.decode_code,
    fun before d after heq hclean => ?_⟩
  · exact MethodDecl.faultless heq (not_faulty h.orderly hnone)
  · rw [Body.map_decl_toMethodCode, h.decls]
  · rw [Body.map_info_toMethodCode]
    exact h.debug.symm
  · obtain ⟨bs₁, b, bs₂, rfl, hdecls, rfl, hb⟩ := hmethods before d after heq hclean
    obtain ⟨known, g, entry, stop, hfollows⟩ := h.follows (by simp) hb
    rw [h.decoded_items] at hfollows
    refine ⟨bs₁.map (Body.toMethodCode target), b.toMethodCode target,
      bs₂.map (Body.toMethodCode target), by simp, ?_, rfl, known, g, entry, stop, hfollows,
      hfollows.exists_run⟩
    rw [Body.map_decl_toMethodCode, hdecls]

/-- A program that leaves a loop, and then one that is not there. -/
def loopAndFault : TokenSource := scan
  "program P \x7b void main() \x7b while (1 == 1) break; \x7d void f() \x7b break; \x7d \x7d"

/-- The first method of the program is executed as its source says. -/
theorem compile_follows_loop : ∃ c d after, loopAndFault.compile 0 = .ok c ∧
    c.diagnostics.toList.map Diagnostic.message = [.breakOutsideLoop] ∧
    (Program.read loopAndFault.tokens).members = .method d :: after ∧
    d.Faultless ((Program.read loopAndFault.tokens).after 0) ∧
    ∃ (ms : List MethodCode) (sites : List Site) (start : Nat),
      Instruction.decode c.image.code.toList = .ok (ms.flatMap MethodCode.code).toArray ∧
      ∀ answers, ∃ c' : Control,
        Control.Reaches (ms.flatMap MethodCode.code) sites ⟨start, answers, []⟩ c' ∧
        c'.visited.map Site.piece = ((flowOfStatements d.body).run answers).visited := by
  obtain ⟨c, hc, -, ms, target, -, -, hdecode, hfollows⟩ := loopAndFault.compile_follows 0
  have hmessages : (loopAndFault.compile 0).toOption.map (·.diagnostics.toList.map Diagnostic.message) =
      some [.breakOutsideLoop] := by
    decide +kernel
  have hfirst : ((Program.read loopAndFault.tokens).members.head?.bind Member.method?).any (fun d =>
      decide (d.Faultless ((Program.read loopAndFault.tokens).after 0))) = true := by
    decide +kernel
  rw [hc] at hmessages
  cases hmembers : (Program.read loopAndFault.tokens).members with
  | nil => simp [hmembers] at hfirst
  | cons first after =>
      cases first with
      | skipped more => simp [hmembers, Member.method?] at hfirst
      | method d =>
          have hclean : d.Faultless ((Program.read loopAndFault.tokens).after 0) := by
            simpa [hmembers, Member.method?] using hfirst
          obtain ⟨_, m, _, -, -, rfl, _, g, entry, _, -, hrun⟩ := hfollows [] d after hmembers hclean
          refine ⟨c, m.decl, after, hc, Option.some.inj hmessages, rfl, hclean, ms, g.pieces,
            entry + Opcode.enter.size, hdecode, fun answers => ?_⟩
          obtain ⟨c', hreaches, -, hvisited, -⟩ := hrun answers
          exact ⟨c', hreaches, hvisited⟩

end TokenSource

end MicroJava
