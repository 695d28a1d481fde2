import MicroJava.Proofs.Arrivals
import MicroJava.Proofs.Listings
import MicroJava.Proofs.NameFiles
import MicroJava.Proofs.RenamedCode

/-!
# How long names are

No name of the debug information is longer than the text that is compiled, or than the reserved names. The
proof is by renaming: if the names that are too long, and no others, are made longer still, the tokens stay
the same, so the debug information does as well.

* `TokenSource.size_name_scan`: the names of the tokens of a text are parts of it.
* `TokenSource.storable_debug`: the names of a program without faults can be stored.
-/

namespace MicroJava

open MicroJava.Tree

/-! ### Names of tokens -/

namespace Lexeme

theorem name_number (cs : List Char) : (number cs).name = "" := by
  unfold number
  dsimp only
  split <;> rfl

theorem name_charConst (cs : List Char) : (charConst cs).name = "" := by
  have hquote (n : Nat) (v : Int) (fs : List Message) (cs : List Char) :
      (closeQuote n v fs cs).name = "" := by
    unfold closeQuote
    split <;> rfl
  fun_cases charConst cs with
  | case1 | case2 | case5 | case6 => rfl
  | case3 c cs d => exact hquote 3 d.toNat [] cs
  | case4 c cs => exact hquote 3 0 [.unknownEscape c] cs
  | case7 c cs => exact hquote 2 c.toNat [] cs

theorem name_symbol (c : Char) (cs : List Char) : (symbol c cs).name = "" := by
  unfold symbol
  split <;> rfl

/-- Only words have names, and they are spelled like them. -/
theorem isPrefix_name_read (cs : List Char) : (read cs).name.toList <+: cs := by
  have hnone {l : Lexeme} (h : l.name = "") : l.name.toList <+: cs := by
    rw [h]
    exact List.nil_prefix
  cases cs with
  | nil => exact hnone rfl
  | cons c cs =>
      rw [read]
      split
      · rw [word]
        split
        · exact List.nil_prefix
        · rw [String.toList_ofList]
          exact List.takeWhile_prefix _
      · refine hnone ?_
        split
        · exact name_number _
        · split
          · exact name_charConst cs
          · exact name_symbol c cs

end Lexeme

theorem Scanner.isInfix_name_reading (s : Scanner) : s.reading.token.name.toList <:+: s.ahead := by
  obtain ⟨skipped, hahead, -⟩ := exists_append_of_skipGap s.position s.position 0 s.ahead
  obtain ⟨rest, hrest⟩ := Lexeme.isPrefix_name_read (skipGap s.position s.position 0 s.ahead).rest
  refine ⟨skipped, rest, ?_⟩
  rw [List.append_assoc]
  exact (congrArg (skipped ++ ·) hrest).trans hahead.symm

/-- No name of a token is longer than the text. -/
theorem TokenSource.size_name_scan (text : String) :
    ∀ t ∈ (scan text).tokens, t.name.utf8ByteSize ≤ text.utf8ByteSize := by
  intro t ht
  obtain ⟨m, htokens, -⟩ := exists_tokens_scan text
  rw [htokens] at ht
  obtain ⟨n, -, rfl⟩ := List.mem_map.1 ht
  obtain ⟨before, htext, -⟩ := Scanner.exists_behind text n
  obtain ⟨front, back, hahead⟩ := (Scanner.after text n).isInfix_name_reading
  have hparts : text = String.ofList (before ++ front) ++ (Scanner.after text n).reading.token.name ++
      String.ofList back := by
    refine String.toList_injective ?_
    simp [htext, ← hahead]
  have hsize := congrArg String.utf8ByteSize hparts
  rw [String.utf8ByteSize_append, String.utf8ByteSize_append] at hsize
  omega

/-! ### Names that are not too long -/

/-- Makes names longer that are too long. -/
def lengthen (limit : Nat) (name : String) : String :=
  if name.utf8ByteSize ≤ limit then name else name.push 'x'

theorem lengthen_eq_self_iff {limit : Nat} {name : String} :
    lengthen limit name = name ↔ name.utf8ByteSize ≤ limit := by
  rw [lengthen]
  split
  · next h => exact ⟨fun _ => h, fun _ => rfl⟩
  · next h =>
      refine ⟨fun heq => ?_, fun hle => absurd hle h⟩
      have hsize := congrArg String.utf8ByteSize heq
      rw [String.utf8ByteSize_push] at hsize
      have hpos := Char.utf8Size_pos 'x'
      omega

/-- The longest reserved names have four letters. -/
theorem faithful_lengthen {limit : Nat} (h : 4 ≤ limit) : Faithful (lengthen limit) where
  injective := by
    intro name other heq
    have hsize (name : String) : (name.push 'x').utf8ByteSize = name.utf8ByteSize + 1 :=
      String.utf8ByteSize_push
    simp only [lengthen] at heq
    split at heq
    · split at heq
      · exact heq
      · have := congrArg String.utf8ByteSize heq
        rw [hsize] at this
        omega
    · split at heq
      · have := congrArg String.utf8ByteSize heq
        rw [hsize] at this
        omega
      · exact (String.push_inj.1 heq).1
  reserved n hn := by
    have hshort : ∀ n ∈ reservedNames, n.utf8ByteSize ≤ 4 := by decide +kernel
    exact lengthen_eq_self_iff.2 ((hshort n hn).trans h)

/-- There are no more methods than bytes, since each of them has an instruction. -/
theorem Compiled.length_le {ms : List Member} {bs : List Body} {s : Compiler} (h : Compiled ms bs s) :
    bs.length ≤ s.code.code.size := by
  have hsize : s.code.code.size = Item.codeSize (bs.flatMap Body.code) := by
    rw [← h.items]
    exact h.sound.assembles.pc_eq
  have hbodies : ∀ bs : List Body, bs.length ≤ Item.codeSize (bs.flatMap Body.code) := by
    intro bs
    induction bs with
    | nil => exact Nat.le_refl 0
    | cons b bs ih =>
        have henter : 0 < (Item.instruction .enter [b.method.parameterCount, b.localCount]).size :=
          Item.size_jump_pos .enter 0
        rw [List.flatMap_cons, Item.codeSize_append, Body.code, Item.codeSize_cons, List.length_cons]
        omega
  exact hsize ▸ hbodies bs

namespace TokenSource

/-- The names of the debug information stay if those of the tokens do. -/
theorem debug_rename {ρ : String → String} (hρ : Faithful ρ) {source : TokenSource}
    (h : ∀ t ∈ source.tokens, ρ t.name = t.name) :
    source.compiler.debug.rename ρ = source.compiler.debug := by
  have hsame : source.tokens.map (Token.rename ρ) = source.tokens :=
    (List.map_congr_left fun t ht => by simp only [Token.rename, h t ht, id]).trans (List.map_id _)
  have hrenames := ((Program.read source.tokens).renames_compile hρ _ _
    (Compiler.renamed_initial hρ)).2.debug
  rw [← Program.read_rename, hsame] at hrenames
  exact hrenames.symm

/-- No name of the debug information is longer than the limit if no name of a token is. -/
theorem size_debug_le {source : TokenSource} {limit : Nat} (hlimit : 4 ≤ limit)
    (h : ∀ t ∈ source.tokens, t.name.utf8ByteSize ≤ limit) :
    source.compiler.debug.program.utf8ByteSize ≤ limit ∧
      (∀ name ∈ source.compiler.debug.globals, name.utf8ByteSize ≤ limit) ∧
      ∀ m ∈ source.compiler.debug.methods, m.name.utf8ByteSize ≤ limit := by
  have hsame := debug_rename (faithful_lengthen hlimit) fun t ht => lengthen_eq_self_iff.2 (h t ht)
  have hglobals := (congrArg DebugInfo.globals hsame).trans (Array.map_id _).symm
  have hmethods := (congrArg DebugInfo.methods hsame).trans (Array.map_id _).symm
  refine ⟨?_, fun name hname => ?_, fun m hm => ?_⟩
  · exact lengthen_eq_self_iff.1 (congrArg DebugInfo.program hsame)
  · exact lengthen_eq_self_iff.1 (Array.map_inj_left.1 hglobals name hname)
  · exact lengthen_eq_self_iff.1 (congrArg MethodInfo.name (Array.map_inj_left.1 hmethods m hm))

/-- The names of a program without faults can be stored if the program can be held in memory. -/
theorem storable_debug {text : String} (htext : text.utf8ByteSize ≤ DebugInfo.maxLength)
    (hclean : ¬ (scan text).compiler.Faulty) (hsize : (scan text).compiler.code.code.size < 2 ^ 31) :
    (scan text).compiler.debug.Storable := by
  let p := Program.read (scan text).tokens
  have hlong : max 4 text.utf8ByteSize ≤ DebugInfo.maxLength := max_le (by decide) htext
  obtain ⟨hprogram, hglobals, hmethods⟩ := size_debug_le (le_max_left 4 text.utf8ByteSize) fun t ht =>
    (size_name_scan text t ht).trans (le_max_right _ _)
  refine ⟨hprogram.trans hlong, ⟨?_, fun name hname => (hglobals name hname).trans hlong⟩,
    ?_, fun m hm => (hmethods m hm).trans hlong⟩
  · have hliterals : p.Literals (fun _ => True) := Program.literals_read fun _ _ => trivial
    obtain ⟨hcount, hsmall⟩ := p.dataSize_compile trivial hliterals.declarations hclean
    obtain ⟨-, hnames, -, hdata⟩ := p.names_compile
    have hlength : (scan text).compiler.debug.globals.size = p.variableCount := by
      rw [← hcount, hdata, ← Array.length_toList]
      exact (congrArg List.length hnames).trans (List.length_map _)
    exact hlength.trans_le (hsmall.trans (by decide))
  · obtain ⟨bs, h, -⟩ := (scan text).compiled_compiler
    have hlength : (scan text).compiler.debug.methods.size = bs.length := by
      rw [← Array.length_toList, h.debug, List.length_map]
    exact hlength.trans_le (h.length_le.trans (hsize.le.trans (by decide)))

end TokenSource

end MicroJava
