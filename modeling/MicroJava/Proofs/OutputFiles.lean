import MicroJava.CommandLine.Run
import MicroJava.Proofs.FileLaws
import MicroJava.Proofs.NameLengths
import MicroJava.Proofs.ObjectFiles

/-!
# What a run leaves in files

The program is run on files that can be relied upon (`FileAccess.Lawful`). A run does its steps one after
the other until one of them fails (`bind_of_ok`, `bind_of_error`), and there is one lemma for what each
part of the program does to the files.

`run_keeps_compiled`: when a source was compiled, the object file has the image, unless it has the extension
of the file with the debug information, which is then written over it. What was listed is listed again when
the object file is given. A source with faults leaves all files as they are.
-/

namespace MicroJava.CommandLine

variable {σ α β : Type} {files : FileAccess (StateM σ)} {s s' s₁ : σ}

/-- The file at a path has the text. -/
def FileAccess.Holds (files : FileAccess (StateM σ)) (s : σ) (path text : String) : Prop :=
  (files.read path s).1 = .ok text.toUTF8.data.toList

/-- The files in which a compilation is kept are written. -/
def FileAccess.Stores (files : FileAccess (StateM σ)) (r : CompileRequest) (c : Compilation) (s s' : σ) :
    Prop :=
  ∃ s₁, files.write r.outputPath c.image.toBytes s = (.ok (), s₁) ∧
    if r.debugInfo then
      files.write (Path.withExtension r.outputPath debugExtension) c.debug.encode s₁ = (.ok (), s')
    else s' = s₁

/-! ### Steps -/

section Steps

variable {x : ExceptT Failure (StateM σ) α} {f : α → ExceptT Failure (StateM σ) β} {a : α} {b : β}
  {e : Failure}

/-- After a step that does not fail comes the next one. -/
theorem bind_of_ok (h : x s = (.ok a, s₁)) : (x >>= f) s = f a s₁ := by
  change StateT.bind x (ExceptT.bindCont f) s = _
  rw [StateT.bind, h]
  rfl

/-- A failure ends the run. -/
theorem bind_of_error (h : x s = (.error e, s₁)) : (x >>= f) s = (.error e, s₁) := by
  change StateT.bind x (ExceptT.bindCont f) s = _
  rw [StateT.bind, h]
  rfl

/-- An operation on files does not end the run. -/
theorem liftM_bind (x : StateM σ α) :
    ((liftM x : ExceptT Failure (StateM σ) α) >>= f) s = f (x s).1 (x s).2 := rfl

theorem exists_of_bind (h : (x >>= f) s = (.ok b, s')) :
    ∃ a s₁, x s = (.ok a, s₁) ∧ f a s₁ = (.ok b, s') := by
  rcases hx : x s with ⟨a | e, s₁⟩
  · rw [bind_of_error hx] at h
    cases h
  · exact ⟨_, s₁, rfl, (bind_of_ok hx).symm.trans h⟩

end Steps

/-! ### Reading and writing -/

/-- A file is read as a whole or not at all, and is not changed by that. -/
theorem readFile_eq (hfiles : files.Lawful) (path : String) (s : σ) :
    readFile files path s = ((files.read path s).1.mapError Failure.file, s) := by
  have hkeeps := hfiles.read_keeps path s
  rw [readFile, liftM_bind, hkeeps]
  cases (files.read path s).1 <;> rfl

theorem writeFile_eq_ok_iff {path : String} {content : Bytes} {u : Unit} :
    writeFile files path content s = (.ok u, s') ↔ files.write path content s = (.ok (), s') := by
  rw [writeFile, liftM_bind]
  rcases files.write path content s with ⟨e | _, s₁⟩
  · constructor <;> intro h <;> cases (Prod.mk.inj h).1
  · constructor <;> intro h <;> exact congrArg (Prod.mk _) (Prod.mk.inj h).2

theorem FileAccess.Holds.unique {path text text' : String} (h : files.Holds s path text)
    (h' : files.Holds s path text') : text = text' := by
  have hbytes := Bytes.fromUTF8?_eq_some_iff.2 (Except.ok.inj (h.symm.trans h'))
  rw [Bytes.fromUTF8?_eq_some_iff.2 rfl] at hbytes
  exact (Option.some.inj hbytes).symm

theorem readText_of_holds (hfiles : files.Lawful) {path text : String} (h : files.Holds s path text) :
    readText files path s = (.ok text, s) := by
  have hread := readFile_eq hfiles path s
  rw [h] at hread
  rw [readText, bind_of_ok hread, Bytes.fromUTF8?_eq_some_iff.2 rfl]
  rfl

/-- A file that is read as a text has it. -/
theorem holds_of_readText (hfiles : files.Lawful) {path text : String}
    (h : readText files path s = (.ok text, s')) : files.Holds s path text ∧ s' = s := by
  rw [readText] at h
  obtain ⟨content, s₁, hread, h⟩ := exists_of_bind h
  rw [readFile_eq hfiles] at hread
  obtain ⟨hcontent, rfl⟩ := Prod.mk.inj hread
  rw [FileAccess.Holds]
  cases hfile : (files.read path s).1 with
  | error e =>
      rw [hfile] at hcontent
      cases hcontent
  | ok content' =>
      rw [hfile] at hcontent
      obtain rfl := Except.ok.inj hcontent
      cases htext : String.fromUTF8? ⟨content'.toArray⟩ with
      | none =>
          rw [htext] at h
          cases (Prod.mk.inj h).1
      | some text' =>
          rw [htext] at h
          obtain ⟨heq, rfl⟩ := Prod.mk.inj h
          obtain rfl := Except.ok.inj heq
          exact ⟨congrArg Except.ok (Bytes.fromUTF8?_eq_some_iff.1 htext).symm, rfl⟩

/-! ### Showing listings -/

theorem showListing_eq {i : Image} {d : Option DebugInfo} {text : String}
    (h : Listing.ofImage i d = .ok text) (s : σ) :
    showListing (m := StateM σ) i d s = (.ok { status := 0, output := text }, s) := by
  rw [showListing, h]
  rfl

theorem listing_of_showListing {i : Image} {d : Option DebugInfo} {o : Outcome}
    (h : showListing (m := StateM σ) i d s = (.ok o, s')) :
    s' = s ∧ o.status = 0 ∧ Listing.ofImage i d = .ok o.output := by
  cases htext : Listing.ofImage i d with
  | ok text =>
      rw [showListing_eq htext] at h
      obtain ⟨ho, rfl⟩ := Prod.mk.inj h
      obtain rfl := Except.ok.inj ho
      exact ⟨rfl, rfl, rfl⟩
  | error e =>
      rw [showListing, htext] at h
      cases (Prod.mk.inj h).1

/-! ### Compiling -/

section Compile

variable {r : CompileRequest} {c : Compilation} {o : Outcome}

/-- A compilation that is written out is stored, and listed if that is asked for. -/
theorem stores_of_writeCompilation (h : writeCompilation files r c s = (.ok o, s')) :
    files.Stores r c s s' ∧ o.status = 0 ∧
      (r.listing = true → Listing.ofImage c.image (some c.debug) = .ok o.output) := by
  obtain ⟨_, s₁, hobject, h⟩ := exists_of_bind h
  have hlisting {s₁ : σ} (h : (if r.listing then showListing c.image (some c.debug)
      else pure { status := 0 } : ExceptT Failure (StateM σ) Outcome) s₁ = (.ok o, s')) : s' = s₁ ∧
      o.status = 0 ∧ (r.listing = true → Listing.ofImage c.image (some c.debug) = .ok o.output) := by
    by_cases hlists : r.listing = true
    · rw [if_pos hlists] at h
      obtain ⟨rfl, hstatus, htext⟩ := listing_of_showListing h
      exact ⟨rfl, hstatus, fun _ => htext⟩
    · rw [if_neg hlists] at h
      obtain ⟨ho, rfl⟩ := Prod.mk.inj h
      obtain rfl := Except.ok.inj ho
      exact ⟨rfl, rfl, fun hlist => absurd hlist hlists⟩
  by_cases hdebug : r.debugInfo = true
  · simp only [hdebug, if_true] at h
    obtain ⟨_, s₂, hnames, h⟩ := exists_of_bind h
    obtain ⟨rfl, hrest⟩ := hlisting h
    exact ⟨⟨s₁, writeFile_eq_ok_iff.1 hobject, by rw [if_pos hdebug, writeFile_eq_ok_iff.1 hnames]⟩, hrest⟩
  · simp only [hdebug] at h
    obtain ⟨rfl, hrest⟩ := hlisting h
    exact ⟨⟨s', writeFile_eq_ok_iff.1 hobject, by rw [if_neg hdebug]⟩, hrest⟩

/-- A compilation that can be stored and listed is written out. -/
theorem writeCompilation_of_stores (h : files.Stores r c s s') {text : String}
    (htext : Listing.ofImage c.image (some c.debug) = .ok text) :
    ∃ o, o.status = 0 ∧ writeCompilation files r c s = (.ok o, s') := by
  obtain ⟨s₁, hobject, hnames⟩ := h
  have hlisting (s : σ) : ∃ o, o.status = 0 ∧ (if r.listing then showListing c.image (some c.debug)
      else pure { status := 0 } : ExceptT Failure (StateM σ) Outcome) s = (.ok o, s) := by
    by_cases hlists : r.listing = true
    · rw [if_pos hlists]
      exact ⟨_, rfl, showListing_eq htext s⟩
    · rw [if_neg hlists]
      exact ⟨_, rfl, rfl⟩
  obtain ⟨o, hstatus, hshown⟩ := hlisting s'
  refine ⟨o, hstatus, ?_⟩
  rw [writeCompilation, bind_of_ok (writeFile_eq_ok_iff (u := ()).2 hobject)]
  by_cases hdebug : r.debugInfo = true
  · rw [if_pos hdebug] at hnames
    simp only [hdebug, if_true]
    exact (bind_of_ok (writeFile_eq_ok_iff (u := ()).2 hnames)).trans hshown
  · rw [if_neg hdebug] at hnames
    simp only [hdebug]
    exact hnames ▸ hshown

/-- The object file has a name. -/
theorem FileAccess.Stores.named (hfiles : files.Lawful) (h : files.Stores r c s s') :
    ∃ before name, Path.names r.outputPath = before ++ [name] ∧ name ∉ Path.dots := by
  obtain ⟨s₁, hobject, -⟩ := h
  exact hfiles.named (congrArg Prod.fst hobject)

/-- The names are in their file, and the image is in the object file unless that is the same one. -/
theorem FileAccess.Stores.read (hfiles : files.Lawful) (h : files.Stores r c s s') :
    (r.debugInfo = true →
      (files.read (Path.withExtension r.outputPath debugExtension) s').1 = .ok c.debug.encode) ∧
    ((r.debugInfo = true → Path.withExtension r.outputPath debugExtension ≠ r.outputPath) →
      (files.read r.outputPath s').1 = .ok c.image.toBytes) := by
  obtain ⟨before, name, hpath, hname⟩ := h.named hfiles
  obtain ⟨s₁, hobject, hnames⟩ := h
  have himage : (files.read r.outputPath s₁).1 = .ok c.image.toBytes := by
    have hread := hfiles.read_back (congrArg Prod.fst hobject)
    rwa [hobject] at hread
  by_cases hdebug : r.debugInfo = true
  · rw [if_pos hdebug] at hnames
    refine ⟨fun _ => ?_, fun hapart => ?_⟩
    · have hread := hfiles.read_back (congrArg Prod.fst hnames)
      rwa [hnames] at hread
    · have hslash : '/' ∉ debugExtension.toList := by decide
      obtain ⟨name', hpath', hne⟩ := Path.names_withExtension hpath hname hslash
      have hread := hfiles.beside hpath hpath' (hne (hapart hdebug)) himage c.debug.encode
      rwa [hnames] at hread
  · rw [if_neg hdebug] at hnames
    exact ⟨fun h => absurd h hdebug, fun _ => hnames ▸ himage⟩

theorem runCompile_of_holds (hfiles : files.Lawful) {text : String} (hsource : files.Holds s r.file text)
    (hc : compile text r.minDistance = .ok c) (noColor : Bool) :
    runCompile files noColor r s =
      if c.isValid then writeCompilation files r c s
      else (.ok {
        status := 1
        errors := diagnosticLines noColor c.diagnostics.toList ++
          summaryLine noColor c.diagnostics.size }, s) := by
  rw [runCompile, bind_of_ok (readText_of_holds hfiles hsource), hc]
  dsimp only
  split <;> rfl

/-- Only a source that can be read is compiled. -/
theorem exists_of_runCompile (hfiles : files.Lawful) {noColor : Bool}
    (h : runCompile files noColor r s = (.ok o, s')) :
    ∃ text c, files.Holds s r.file text ∧ compile text r.minDistance = .ok c := by
  rw [runCompile] at h
  obtain ⟨text, s₁, hread, -⟩ := exists_of_bind h
  exact ⟨text, _, (holds_of_readText hfiles hread).1, (TokenSource.scan text).compile_eq_ok r.minDistance⟩

end Compile

/-! ### Listing -/

section Listing

variable {i : Image} {d : DebugInfo} {image text : String}

/-- The listing of an object file next to which there is one with debug information. -/
theorem runDisassemble_eq (hfiles : files.Lawful) (himage : (files.read image s).1 = .ok i.toBytes)
    (hi : i.Storable)
    (hdebug : (files.read (Path.withExtension image debugExtension) s).1 = .ok d.encode) (hd : d.Storable)
    (htext : Listing.ofImage i (some d) = .ok text) :
    runDisassemble files image none s = (.ok { status := 0, output := text }, s) := by
  have himage' := readFile_eq hfiles image s
  rw [himage] at himage'
  have hpath : debugPath? files image none s =
      (.ok (some (Path.withExtension image debugExtension)), s) := by
    rw [debugPath?, liftM_bind, hfiles.isThere_of_read hdebug, hfiles.isThere_keeps]
    rfl
  have hnames : readDebugInfo files (Path.withExtension image debugExtension) s = (.ok d, s) := by
    have hread := readFile_eq hfiles (Path.withExtension image debugExtension) s
    rw [hdebug] at hread
    have hdecode := (DebugInfo.keptIn_encode hd).decodes []
    rw [List.append_nil] at hdecode
    rw [readDebugInfo, bind_of_ok hread, hdecode]
    rfl
  rw [runDisassemble, bind_of_ok himage', Image.ofBytes_eq_ok_iff.2 ⟨rfl, hi⟩]
  dsimp only
  rw [bind_of_ok hpath]
  dsimp only
  have hsome : (some <$> readDebugInfo files (Path.withExtension image debugExtension)) s =
      (.ok (some d), s) := by
    rw [map_eq_pure_bind, bind_of_ok hnames]
    rfl
  rw [bind_of_ok hsome, showListing_eq htext]

end Listing

/-! ### Runs -/

section Run

variable {args : List String} {i : Invocation} {o : Outcome}

/-- A failure ends a run with a message. -/
theorem run_eq (hargs : Invocation.ofArguments args = some i) (s : σ) :
    run files args s = match runRequest files i s with
      | (.ok o, s') => (o, s')
      | (.error e, s') => ({ status := 1, errors := failureLine i.noColor e }, s') := by
  rw [run, hargs]
  change StateT.bind (runRequest files i) _ s = _
  rw [StateT.bind]
  rcases runRequest files i s with ⟨e | o, s₁⟩ <;> rfl

theorem runRequest_of_run (hargs : Invocation.ofArguments args = some i) (h : run files args s = (o, s'))
    (hstatus : o.status = 0) : runRequest files i s = (.ok o, s') := by
  rw [run_eq hargs] at h
  rcases hrequest : runRequest files i s with ⟨e | o', s₁⟩ <;> rw [hrequest] at h
  · obtain ⟨rfl, -⟩ := Prod.mk.inj h
    cases hstatus
  · obtain ⟨rfl, rfl⟩ := Prod.mk.inj h
    rfl

/-- The arguments ask for the listing of an object file, with the names that there are next to it. -/
def Lists (args : List String) (path : String) : Prop :=
  ∃ noColor, Invocation.ofArguments args = some { noColor, request := .disassemble path none }

/-- A name that looks like an option has to stand behind two dashes. -/
theorem lists_disasm {path : String} (hpath : path ≠ "") : Lists ["disasm", "--", path] path ∧
    (Argument.ofString path = .plain path → Lists ["disasm", path] path) := by
  have hset : ListOptions.setImage {} path = some { image := some path } := by
    rw [ListOptions.setImage, path?, if_neg hpath]
    rfl
  refine ⟨⟨false, ?_⟩, fun hplain => ⟨false, ?_⟩⟩
  · have hseparator : Argument.ofString "--" = .separator := by decide
    rw [Invocation.ofArguments, ListOptions.read, hseparator]
    dsimp only
    rw [ListOptions.readNames, hset]
    rfl
  · rw [Invocation.ofArguments, ListOptions.read, hplain]
    dsimp only
    rw [hset]
    rfl

/-- Every compilation can be listed. -/
theorem exists_listing {text : String} {minDistance : Nat} {c : Compilation}
    (hc : compile text minDistance = .ok c) : ∃ lines, Listing.ofImage c.image (some c.debug) = .ok lines := by
  obtain ⟨bs, h, -⟩ := (TokenSource.scan text).compiled_compiler
  obtain rfl := Except.ok.inj ((TokenSource.compile_eq_ok _ _).symm.trans hc)
  exact ⟨_, Listing.ofImage_eq h.decode_code _⟩

/-- The names and the code of a small enough program without faults are read back from its files. -/
theorem storable_of_compile {text : String} {minDistance : Nat} {c : Compilation}
    (hc : compile text minDistance = .ok c) (hnone : c.diagnostics = #[])
    (hsize : c.image.code.size < 2 ^ 31) (htext : text.utf8ByteSize ≤ DebugInfo.maxLength) :
    c.image.Storable ∧ c.debug.Storable := by
  obtain ⟨bs, h, -⟩ := (TokenSource.scan text).compiled_compiler
  obtain ⟨c', hc', hstorable⟩ := (TokenSource.scan text).storable_compile minDistance
  obtain rfl := Except.ok.inj (hc'.symm.trans hc)
  refine ⟨hstorable hsize, ?_⟩
  obtain rfl := Except.ok.inj ((TokenSource.compile_eq_ok _ _).symm.trans hc)
  exact TokenSource.storable_debug htext (TokenSource.not_faulty h.orderly hnone) hsize

/-- A run that compiles a source without faults ends well if and only if its files can be written. One with
faults is not written. -/
theorem run_of_holds (hfiles : files.Lawful) {r : CompileRequest} {noColor : Bool}
    (hargs : Invocation.ofArguments args = some { noColor, request := .compile r })
    (htokens : r.tokens = false) (hrun : run files args s = (o, s')) {text : String} {c : Compilation}
    (hsource : files.Holds s r.file text) (hc : compile text r.minDistance = .ok c) :
    (c.diagnostics ≠ #[] → o.status ≠ 0 ∧ s' = s) ∧
    (c.diagnostics = #[] → (o.status = 0 ↔ ∃ s₂, files.Stores r c s s₂)) ∧
    (o.status = 0 → files.Stores r c s s' ∧
      (r.listing = true → Listing.ofImage c.image (some c.debug) = .ok o.output)) := by
  have hrequest : runRequest files { noColor, request := .compile r } s =
      runCompile files noColor r s := by
    rw [runRequest]
    simp only [htokens, Bool.false_eq_true, if_false]
  have hcompiled := runCompile_of_holds hfiles hsource hc noColor
  by_cases hvalid : c.isValid = true
  · rw [if_pos hvalid] at hcompiled
    have hnone : c.diagnostics = #[] := Array.isEmpty_iff.1 hvalid
    have hstored (hstatus : o.status = 0) := stores_of_writeCompilation
      (hcompiled.symm.trans (hrequest.symm.trans (runRequest_of_run hargs hrun hstatus)))
    refine ⟨fun hfaults => absurd hnone hfaults, fun _ => ⟨fun hstatus => ⟨_, (hstored hstatus).1⟩, ?_⟩,
      fun hstatus => ⟨(hstored hstatus).1, (hstored hstatus).2.2⟩⟩
    rintro ⟨s₂, hstores⟩
    obtain ⟨lines, hlines⟩ := exists_listing hc
    obtain ⟨o', hstatus, hwritten⟩ := writeCompilation_of_stores hstores hlines
    rw [run_eq hargs, hrequest, hcompiled, hwritten] at hrun
    obtain ⟨rfl, -⟩ := Prod.mk.inj hrun
    exact hstatus
  · rw [if_neg hvalid] at hcompiled
    rw [run_eq hargs, hrequest, hcompiled] at hrun
    obtain ⟨rfl, rfl⟩ := Prod.mk.inj hrun
    exact ⟨fun _ => ⟨Nat.one_ne_zero, rfl⟩, fun hnone => absurd (Array.isEmpty_iff.2 hnone) hvalid,
      fun hstatus => absurd hstatus Nat.one_ne_zero⟩

/-- A run ends well if and only if it has compiled a source without faults whose files can be written, and
the object file then has the image. With debug information this is so unless the object file has the
extension of the file with the names, and then that is what it has. The object file and the names can be
listed, and the listing is that of the run. After a source with faults all files are as before. -/
theorem run_keeps_compiled (hfiles : files.Lawful) {r : CompileRequest} {noColor : Bool}
    (hargs : Invocation.ofArguments args = some { noColor, request := .compile r })
    (htokens : r.tokens = false) (hrun : run files args s = (o, s')) :
    (o.status = 0 ↔ ∃ text c, files.Holds s r.file text ∧ compile text r.minDistance = .ok c ∧
      c.diagnostics = #[] ∧ ∃ s₂, files.Stores r c s s₂) ∧
    ∀ text c, files.Holds s r.file text → compile text r.minDistance = .ok c →
      (c.diagnostics ≠ #[] → o.status ≠ 0 ∧ s' = s) ∧
      (o.status = 0 →
        (r.debugInfo = true → Path.withExtension r.outputPath debugExtension = r.outputPath →
          (files.read r.outputPath s').1 = .ok c.debug.encode) ∧
        ((r.debugInfo = true → Path.withExtension r.outputPath debugExtension ≠ r.outputPath) →
          (files.read r.outputPath s').1 = .ok c.image.toBytes ∧
          (r.debugInfo = true → r.listing = true → c.image.code.size < 2 ^ 31 →
            text.utf8ByteSize ≤ DebugInfo.maxLength →
            Lists ["disasm", "--", r.outputPath] r.outputPath ∧
            (Argument.ofString r.outputPath = .plain r.outputPath →
              Lists ["disasm", r.outputPath] r.outputPath) ∧
            ∀ again, Lists again r.outputPath →
              run files again s' = ({ status := 0, output := o.output }, s')))) := by
  have hends {text : String} {c : Compilation} (hsource : files.Holds s r.file text)
      (hc : compile text r.minDistance = .ok c) := run_of_holds hfiles hargs htokens hrun hsource hc
  have hvalid {text : String} {c : Compilation} (hsource : files.Holds s r.file text)
      (hc : compile text r.minDistance = .ok c) (hstatus : o.status = 0) : c.diagnostics = #[] := by
    by_contra hfaults
    exact ((hends hsource hc).1 hfaults).1 hstatus
  refine ⟨⟨fun hstatus => ?_, ?_⟩, fun text c hsource hc => ⟨(hends hsource hc).1, fun hstatus => ?_⟩⟩
  · have hcompile := runRequest_of_run hargs hrun hstatus
    rw [runRequest] at hcompile
    simp only [htokens, Bool.false_eq_true, if_false] at hcompile
    obtain ⟨text, c, hsource, hc⟩ := exists_of_runCompile hfiles hcompile
    exact ⟨text, c, hsource, hc, hvalid hsource hc hstatus, _, ((hends hsource hc).2.2 hstatus).1⟩
  · rintro ⟨text, c, hsource, hc, hnone, hstored⟩
    exact ((hends hsource hc).2.1 hnone).2 hstored
  · obtain ⟨hstored, hlisting⟩ := (hends hsource hc).2.2 hstatus
    obtain ⟨hnames, hobject⟩ := hstored.read hfiles
    refine ⟨fun hdebug heq => heq ▸ hnames hdebug, fun hapart => ⟨hobject hapart, ?_⟩⟩
    intro hdebug hlists hsize htext
    obtain ⟨before, name, hpath, hname⟩ := hstored.named hfiles
    obtain ⟨hseparated, hplain⟩ := lists_disasm (Path.ne_empty_of_names hpath hname)
    refine ⟨hseparated, hplain, fun again ⟨noColor', hagain⟩ => ?_⟩
    obtain ⟨himage, hdebugInfo⟩ := storable_of_compile hc (hvalid hsource hc hstatus) hsize htext
    have hshown := runDisassemble_eq hfiles (hobject hapart) himage (hnames hdebug) hdebugInfo
      (hlisting hlists)
    have hlist : runRequest files { noColor := noColor', request := .disassemble r.outputPath none } =
        runDisassemble files r.outputPath none := rfl
    rw [run_eq hagain, hlist, hshown]

/-- A program that does nothing. -/
def idleProgram : String := "program P \x7b void main() \x7b \x7d \x7d"

/-- A directory with nothing but a program. -/
def idleDirectory : Directory := { files := [("p.mj", idleProgram.toUTF8.data.toList)] }

/-- The program is compiled and listed, and its object file is listed in the same way. -/
theorem run_keeps_compiled_idle : ∃ o d c,
    run Directory.access ["p.mj", "--debug-info", "--disasm"] idleDirectory = (o, d) ∧ o.status = 0 ∧
      compile idleProgram defaultDistance = .ok c ∧ d.read "p.obj" = .ok c.image.toBytes ∧
      run Directory.access ["disasm", "p.obj"] d = ({ status := 0, output := o.output }, d) := by
  have hargs : Invocation.ofArguments ["p.mj", "--debug-info", "--disasm"] =
      some { request := .compile { file := "p.mj", listing := true, debugInfo := true } } := by decide +kernel
  have hpath : Path.withExtension "p.mj" objectExtension = "p.obj" := by decide +kernel
  have hapart : Path.withExtension "p.obj" debugExtension ≠ "p.obj" := by decide +kernel
  have hwell : (run Directory.access ["p.mj", "--debug-info", "--disasm"] idleDirectory).1.status = 0 := by
    decide +kernel
  have hsmall : (compile idleProgram defaultDistance).toOption.all
      (fun c => decide (c.image.code.size < 2 ^ 31)) = true := by
    decide +kernel
  rcases hrun : run Directory.access ["p.mj", "--debug-info", "--disasm"] idleDirectory with ⟨o, d⟩
  rw [hrun] at hwell
  obtain ⟨hends, hkept⟩ := run_keeps_compiled Directory.lawful_access hargs rfl hrun
  obtain ⟨text, c, hsource, hc, -⟩ := hends.1 hwell
  obtain rfl : text = idleProgram := hsource.unique rfl
  obtain ⟨-, hread⟩ := (hkept _ c hsource hc).2 hwell
  rw [CompileRequest.outputPath, Option.getD_none, hpath] at hread
  obtain ⟨hobject, hlists⟩ := hread fun _ => hapart
  rw [hc] at hsmall
  obtain ⟨-, hplain, hlisted⟩ := hlists rfl rfl (of_decide_eq_true hsmall) (by decide +kernel)
  exact ⟨o, d, c, rfl, hwell, hc, hobject, hlisted _ (hplain (by decide +kernel))⟩

/-- The file with the names takes the place of the object file, although the run ends well. -/
theorem run_overwrites_object :
    Invocation.ofArguments ["p.mj", "-o", "p.dbg", "--debug-info"] =
      some { request := .compile { file := "p.mj", output := some "p.dbg", debugInfo := true } } ∧
    (run Directory.access ["p.mj", "-o", "p.dbg", "--debug-info"] idleDirectory).1.status = 0 ∧
    ∃ c, compile idleProgram defaultDistance = .ok c ∧
      (run Directory.access ["p.mj", "-o", "p.dbg", "--debug-info"] idleDirectory).2.read "p.dbg" ≠
        .ok c.image.toBytes := by
  refine ⟨by decide +kernel, by decide +kernel, _, (TokenSource.scan idleProgram).compile_eq_ok _, ?_⟩
  decide +kernel

end Run

end MicroJava.CommandLine
