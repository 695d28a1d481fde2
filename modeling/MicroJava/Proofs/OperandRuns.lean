import MicroJava.Proofs.Meaning

/-!
# What the code of operands does

`Processor.Does is before x after` says what items do to the stack: they find the words `before` on it, do
what `x` does, and leave the words `after` of its value instead. Code that is written one part after the
other does so (`Processor.Does.bind`), and what is below on the stack never matters.

The words of a place are on the stack while its operand is worked with. Loading it fetches the value of the
place, storing puts one there, and stepping does both, by one instruction or by several ones.
-/

namespace MicroJava

/-! ### What code does to the stack -/

/-- Nothing but values that `Q` holds of are yielded. -/
def Effect.Yields {ι α : Type} (x : Effect ι α) (Q : α → Prop) : Prop :=
  ∀ m a m', x m = .ok (a, m') → Q a

namespace Effect

variable {ι α β : Type} {x : Effect ι α} {f g : α → Effect ι β} {Q : α → Prop} {R : β → Prop}

theorem Yields.pure {a : α} (h : Q a) : Yields (Pure.pure a : Effect ι α) Q := by
  intro m b m' hm
  obtain ⟨rfl, -⟩ := Prod.mk.inj (Except.ok.inj hm)
  exact h

theorem Yields.bind (hx : Yields x Q) (hf : ∀ a, Q a → Yields (f a) R) : Yields (x >>= f) R := by
  intro m b m' hm
  obtain ⟨a, m₁, ha, hb⟩ := exists_of_bind hm
  exact hf a (hx m a m₁ ha) m₁ b m' hb

/-- Nothing has to be known of the first value. -/
theorem Yields.after (hf : ∀ a, Yields (f a) R) : Yields (x >>= f) R :=
  .bind (Q := fun _ => True) (fun _ _ _ _ => trivial) fun a _ => hf a

theorem Yields.bind_congr (hx : Yields x Q) (h : ∀ a, Q a → f a = g a) : x >>= f = x >>= g := by
  funext m
  change (x m >>= fun r => f r.1 r.2) = x m >>= fun r => g r.1 r.2
  cases hr : x m with
  | error e => rfl
  | ok r => exact congrFun (h r.1 (hx m r.1 r.2 hr)) r.2

end Effect

/-- The items do what `x` does. They find the words `before` on the stack and leave `after` of the value
instead, whatever is below. -/
def Processor.Does {ι α : Type} (P : Processor ι) (is : List Item) (before : List Word) (x : Effect ι α)
    (after : α → List Word) : Prop :=
  ∀ ws, P.execAll is (before ++ ws) = x >>= fun a => pure (after a ++ ws)

namespace Processor.Does

open Effect

variable {ι α β : Type} {P : Processor ι} {is js : List Item} {before : List Word}
  {x : Effect ι α} {f : α → Effect ι β} {g : α → List Word} {g' : β → List Word} {Q : α → Prop}

theorem pure {a : α} : P.Does [] (g a) (Pure.pure a) g := fun _ => (pure_bind _ _).symm

/-- One operation. -/
theorem single {i : Item} {o : Operation} (hi : i.operation? = some o)
    (h : ∀ ws, P.exec o (before ++ ws) = x >>= fun a => Pure.pure (g a ++ ws)) :
    P.Does [i] before x g :=
  fun ws => (P.execAll_single hi _).trans (h ws)

/-- What is known of a value may be used for the code after it. -/
theorem bind_of (hx : P.Does is before x g) (hq : Yields x Q)
    (hf : ∀ a, Q a → P.Does js (g a) (f a) g') : P.Does (is ++ js) before (x >>= f) g' := by
  intro ws
  rw [P.execAll_append, hx ws, bind_assoc, bind_assoc]
  refine hq.bind_congr fun a ha => ?_
  rw [pure_bind]
  exact hf a ha ws

theorem bind (hx : P.Does is before x g) (hf : ∀ a, P.Does js (g a) (f a) g') :
    P.Does (is ++ js) before (x >>= f) g' :=
  hx.bind_of (Q := fun _ => True) (fun _ _ _ _ => trivial) fun a _ => hf a

/-- More words may be on the stack. -/
theorem above (hx : P.Does is before x g) (more : List Word) :
    P.Does is (before ++ more) x fun a => g a ++ more := by
  intro ws
  simpa only [List.append_assoc] using hx (more ++ ws)

/-- The value is looked at only after the code. -/
theorem map (hx : P.Does is before x g) {k : α → β} (h : ∀ a, g' (k a) = g a) :
    P.Does is before (x >>= fun a => Pure.pure (k a)) g' := by
  rw [← List.append_nil is]
  refine hx.bind fun a => ?_
  rw [← h a]
  exact pure

end Processor.Does

variable {ι : Type} {P : Processor ι}

theorem does_pushConstant (n : Int) :
    P.Does [Operation.item (pushConstant n)] [] (pure (BitVec.ofInt 32 n)) fun v => [v] := by
  refine .single rfl fun ws => ?_
  unfold pushConstant
  repeat' split
  all_goals first | (next h => subst h; rfl) | rfl

theorem does_pushLocal (slot : Int) :
    P.Does [Operation.item (pushLocal slot)] [] (Cell.localVar slot).fetch fun v => [v] := by
  refine .single rfl fun ws => ?_
  unfold pushLocal
  repeat' split
  all_goals first | (next h => subst h; rfl) | rfl

theorem does_popLocal (slot : Int) (v : Word) :
    P.Does [Operation.item (popLocal slot)] [v] ((Cell.localVar slot).put v) fun _ => [] := by
  refine .single rfl fun ws => ?_
  unfold popLocal
  repeat' split
  all_goals first | (next h => subst h; rfl) | rfl

/-- As many products as copies were made. -/
theorem execAll_mul (P : Processor ι) (n : Nat) (v w : Word) (ws : List Word) :
    P.execAll (List.replicate n (.instruction .mul [])) (w :: (List.replicate n v ++ ws)) =
      pure (v ^ n * w :: ws) := by
  induction n generalizing w with
  | zero => rw [BitVec.pow_zero, BitVec.one_mul]; rfl
  | succ n ih =>
      have hstep : P.execAll (List.replicate (n + 1) (.instruction .mul []))
          (w :: (List.replicate (n + 1) v ++ ws)) =
          P.execAll (List.replicate n (.instruction .mul [])) (v * w :: (List.replicate n v ++ ws)) := rfl
      rw [hstep, ih, BitVec.pow_succ, BitVec.mul_assoc]

theorem execAll_dup (P : Processor ι) (n : Nat) (v : Word) (ws : List Word) :
    P.execAll (List.replicate n (.instruction .dup [])) (v :: ws) =
      pure (v :: (List.replicate n v ++ ws)) := by
  induction n generalizing ws with
  | zero => rfl
  | succ n ih =>
      have hstep : P.execAll (List.replicate (n + 1) (.instruction .dup [])) (v :: ws) =
          P.execAll (List.replicate n (.instruction .dup [])) (v :: v :: ws) := rfl
      have hcopies : List.replicate n v ++ v :: ws = List.replicate (n + 1) v ++ ws := by
        rw [List.replicate_succ', List.append_assoc]
        rfl
      rw [hstep, ih, hcopies]

/-- A power is computed by copies of the base and products. -/
theorem does_powerCode {k : Int} (hk : 0 ≤ k) (v : Word) :
    P.Does ((powerCode k).map Operation.item) [v] (pure (v ^ k.toNat)) fun v => [v] := by
  intro ws
  unfold powerCode
  split
  · next hzero =>
      subst hzero
      rfl
  · next hzero =>
      obtain ⟨n, rfl⟩ : ∃ n : Nat, k = (n + 1 : Nat) := ⟨k.toNat - 1, by omega⟩
      have hn : ((n + 1 : Nat) - 1 : Int).toNat = n := by omega
      rw [hn, List.map_append, List.map_replicate, List.map_replicate]
      have hdup := execAll_dup P n v ws
      have hmul := execAll_mul P n v v ws
      rw [P.execAll_append]
      change P.execAll (List.replicate n (.instruction .dup [])) (v :: ws) >>= _ = _
      rw [hdup, pure_bind, pure_bind]
      exact hmul

namespace Operand

variable {x : Operand} {p : Place}

/-- Loading an operand fetches the value of its place. -/
theorem does_loading (h : x.Denotes p) :
    P.Does x.loading p.words p.fetch fun v => [v] := by
  obtain ⟨location, type⟩ := x
  cases location with
  | constant n =>
      obtain rfl : p = .constant (BitVec.ofInt 32 n) := h
      exact does_pushConstant n
  | localVar slot =>
      obtain rfl : p = .cell (.localVar slot) := h
      exact does_pushLocal slot
  | globalVar address =>
      obtain rfl : p = .cell (.globalVar address) := h
      exact .single rfl fun ws => rfl
  | field offset =>
      obtain ⟨r, rfl⟩ := h
      exact .single rfl fun ws => rfl
  | element =>
      obtain ⟨r, i, rfl⟩ := h
      by_cases hchar : type = .char
      · subst hchar
        exact .single rfl fun ws => rfl
      · have hloading : loading ⟨.element, type⟩ = [.instruction .aload []] := by
          simp [loading, loadCode?, hchar, Operation.item]
        dsimp only
        rw [if_neg hchar, hloading]
        exact .single rfl fun ws => rfl
  | stack | method _ | condition _ _ _ => exact h.elim

/-- Storing into an operand puts the word on the top at its place. -/
theorem does_storing (h : x.Denotes p) (hx : x.storeCode?.isSome) (v : Word) :
    P.Does x.storing (v :: p.words) (p.put v) fun _ => [] := by
  obtain ⟨location, type⟩ := x
  cases location with
  | localVar slot =>
      obtain rfl : p = .cell (.localVar slot) := h
      exact does_popLocal slot v
  | globalVar address =>
      obtain rfl : p = .cell (.globalVar address) := h
      exact .single rfl fun ws => rfl
  | field offset =>
      obtain ⟨r, rfl⟩ := h
      exact .single rfl fun ws => rfl
  | element =>
      obtain ⟨r, i, rfl⟩ := h
      by_cases hchar : type = .char
      · subst hchar
        exact .single rfl fun ws => rfl
      · have hstoring : storing ⟨.element, type⟩ = [.instruction .astore []] := by
          simp [storing, storeCode?, hchar, Operation.item]
        dsimp only
        rw [if_neg hchar, hstoring]
        exact .single rfl fun ws => rfl
  | constant _ | stack | method _ | condition _ _ _ => cases hx

/-- What the place of an operand needs is on the stack twice. -/
theorem does_duplicating (h : x.Denotes p) :
    P.Does x.duplicating p.words (pure ()) fun _ => p.words ++ p.words := by
  obtain ⟨location, type⟩ := x
  cases location with
  | constant n =>
      obtain rfl : p = .constant (BitVec.ofInt 32 n) := h
      exact fun ws => (pure_bind _ _).symm
  | localVar slot =>
      obtain rfl : p = .cell (.localVar slot) := h
      exact fun ws => (pure_bind _ _).symm
  | globalVar address =>
      obtain rfl : p = .cell (.globalVar address) := h
      exact fun ws => (pure_bind _ _).symm
  | field offset =>
      obtain ⟨r, rfl⟩ := h
      exact .single rfl fun ws => rfl
  | element =>
      obtain ⟨r, i, rfl⟩ := h
      dsimp only
      split <;> exact .single rfl fun ws => rfl
  | stack | method _ | condition _ _ _ => exact h.elim

/-- Before an operand is updated, its old value is pushed and what its place needs is kept. -/
theorem does_preparing (h : x.Denotes p) :
    P.Does (x.duplicating ++ x.loading) p.words p.fetch fun v => v :: p.words := by
  have hboth := (does_duplicating (P := P) h).bind fun _ => (does_loading (P := P) h).above p.words
  rwa [pure_bind] at hboth

/-- The code that loads a value, adds a number to it and stores it, whatever the operand is. -/
def adding (x : Operand) (k : Int) : List Item :=
  x.duplicating ++ x.loading ++ (constant k .int).loading ++ [.instruction .add []] ++ x.storing

theorem does_adding (h : x.Denotes p) (hx : x.storeCode?.isSome) (k : Int) :
    P.Does (x.adding k) p.words (p.fetch >>= fun v => p.put (v + BitVec.ofInt 32 k)) fun _ => [] := by
  rw [adding, List.append_assoc, List.append_assoc]
  refine (does_preparing h).bind fun v => ?_
  have hadd : P.Does ((constant k .int).loading ++ ([.instruction .add []] ++ x.storing)) (v :: p.words)
      (pure (BitVec.ofInt 32 k) >>= fun w => pure (v + w) >>= fun w => p.put w) fun _ => [] :=
    ((does_pushConstant k).above (v :: p.words)).bind fun w =>
      Processor.Does.bind (g := fun w => w :: p.words) (.single rfl fun ws => rfl) fun w =>
      does_storing h hx w
  rwa [pure_bind, pure_bind] at hadd

theorem does_inc (slot k : Int) : P.Does [.instruction .inc [slot, k]] []
    ((Cell.localVar slot).fetch >>= fun v => (Cell.localVar slot).put (v + BitVec.ofInt 32 k))
    fun _ => [] := by
  refine .single rfl fun ws => ?_
  rw [bind_assoc]
  rfl

/-- The short form of adding to a local variable does the same as the long one. -/
theorem execAll_inc (P : Processor ι) (type : Ty) (slot k : Int) :
    P.execAll [.instruction .inc [slot, k]] = P.execAll (adding ⟨.localVar slot, type⟩ k) := by
  have hlong := does_adding (P := P) (x := ⟨.localVar slot, type⟩) (p := .cell (.localVar slot)) rfl rfl k
  funext ws
  exact (does_inc slot k ws).trans (hlong ws).symm

/-- Stepping an operand adds to the value at its place, in one instruction or in several ones. -/
theorem does_stepping (h : x.Denotes p) (hx : x.storeCode?.isSome) (k : Int) :
    P.Does (x.stepping k) p.words (p.fetch >>= fun v => p.put (v + BitVec.ofInt 32 k)) fun _ => [] := by
  unfold stepping
  split
  · next slot hslot =>
      unfold Denotes at h
      rw [hslot] at h
      subst h
      exact does_inc slot k
  · exact does_adding h hx k

/-- Reading into an operand puts what comes from the input at its place. -/
theorem does_reading (hx : x.Denotes p) (hread : (readOpcode? x.type).isSome)
    (hstore : x.storeCode?.isSome) :
    P.Does ([.instruction ((readOpcode? x.type).getD .read) []] ++ x.storing) p.words
      (P.input (x.type = .char) >>= p.put) fun _ => [] := by
  refine Processor.Does.bind (g := fun v => v :: p.words) (.single rfl fun ws => ?_) fun v =>
    does_storing hx hstore v
  obtain ⟨location, type⟩ := x
  cases type with
  | int | char => rfl
  | _ => cases hread

/-- What can be stored to can be loaded. -/
theorem isSome_loadCode?_of_store (h : x.storeCode?.isSome) : x.loadCode?.isSome := by
  obtain ⟨location, type⟩ := x
  cases location <;> first | rfl | cases h

/-- A call does what the method does with the arguments on the stack. -/
theorem does_calling {t : SymbolTable} (ht : t.Closed) {id : SymbolId} (hx : x.location = .method id)
    (hid : P.Knows t id) {vs : List Word} (hvs : vs.length = (t.symbol id).parameters.size) :
    P.Does (x.calling t) vs.reverse (P.invoke t x vs) fun v => [v] := by
  unfold Operand.calling Processor.invoke
  rw [hx]
  dsimp only
  split
  · next hconversion =>
      rw [(ht.convert (.inl hconversion)).1] at hvs
      obtain ⟨v, rfl⟩ := List.length_eq_one_iff.1 hvs
      exact fun ws => (pure_bind _ _).symm
  · next hconversion =>
      split
      · next hlen =>
          rw [(ht.convert (.inr hlen)).1] at hvs
          obtain ⟨v, rfl⟩ := List.length_eq_one_iff.1 hvs
          exact .single rfl fun ws => rfl
      · next hlen =>
          have harity := hid.resolve_left fun h => h.elim hconversion hlen
          refine .single rfl fun ws => ?_
          have hlength : vs.reverse.length = (P.method (t.symbol id).address).arity := by
            rw [List.length_reverse, hvs, harity]
          have hexec : P.exec (.call, [(t.symbol id).address]) (vs.reverse ++ ws) =
              if (vs.reverse ++ ws).length < (P.method (t.symbol id).address).arity then throw .undefined
              else do
                let v ← (P.method (t.symbol id).address).call
                  ((vs.reverse ++ ws).take (P.method (t.symbol id).address).arity).reverse
                return v :: (vs.reverse ++ ws).drop (P.method (t.symbol id).address).arity := rfl
          rw [hexec, if_neg (by rw [List.length_append]; omega), ← hlength, List.take_left, List.drop_left,
            List.reverse_reverse]
          rfl

end Operand

end MicroJava
