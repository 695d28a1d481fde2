import Mathlib.Algebra.BigOperators.Group.Finset.Piecewise
import MicroJava.Proofs.CodeSteps

/-!
# Jumps are filled in when their labels are placed

A jump and the place of its label may come in either order. `Patched t e` says that the emitter `e`
is what the steps in `t` have made of an empty one: a label without a place remembers the jumps to
it, and every other jump has its way as its operand. Each step keeps this true (`Patched.act`).

So in any work on code that places no label twice (`CodeStep.Allowed`) the jumps are right as soon
as their labels have a place, what was written stays as it is but for their operands, and the jumps
that wait and the ways that are too far are counted one by one (`CodeStep.patches_of_allowed`).
-/

namespace MicroJava

open Compiler

/-! ### Filling in -/

namespace Emitter

open CodeStep

variable {e : Emitter} {bs : Bytes} {i a : Nat}

theorem getElem?_code_append (h : i < e.pc) : (e.append bs).code[i]? = e.code[i]? := by
  have hi : i < e.code.toList.length := Array.length_toList.symm ▸ h
  have hcode : (e.append bs).code.toList = e.code.toList ++ bs := by simp [append]
  rw [← Array.getElem?_toList, hcode, List.getElem?_append_left hi, Array.getElem?_toList]

theorem pc_le_append (e : Emitter) (bs : Bytes) : e.pc ≤ (e.append bs).pc := by
  simp [pc, append, ← Array.length_toList]

theorem getElem?_code_emitTo {op : Opcode} {target : Int} (h : i < e.pc) :
    (e.emitTo op target).code[i]? = e.code[i]? := by
  rw [← code_noteWay e (target - e.pc)]
  exact getElem?_code_append (h.trans_eq (pc_noteWay e _).symm)

theorem pc_le_emitTo (e : Emitter) (op : Opcode) (target : Int) :
    e.pc ≤ (e.emitTo op target).pc :=
  (pc_noteWay e _).ge.trans (pc_le_append _ _)

theorem getElem?_fillIn_of_ne {code : Array UInt8} {site : Nat} {way : Int} (h : i ≠ site)
    (h' : i ≠ site + 1) : (fillIn code site way)[i]? = code[i]? := by
  rw [fillIn, Array.getElem?_setIfInBounds_ne (Ne.symm h'),
    Array.getElem?_setIfInBounds_ne (Ne.symm h)]

theorem hasWay_fillIn {code : Array UInt8} {way : Int} (h : a + 2 < code.size) :
    HasWay (fillIn code (a + 1) way) a way := by
  refine ⟨?_, ?_⟩
  · rw [fillIn, Array.getElem?_setIfInBounds_ne (by omega),
      Array.getElem?_setIfInBounds_self_of_lt (by omega)]
  · rw [fillIn, Array.getElem?_setIfInBounds_self_of_lt (by simpa using h)]

theorem code_resolve (address site : Nat) : (resolve address e site).code =
    fillIn e.code site (address - (site - 1)) := by
  rw [resolve, code_noteWay]

theorem size_foldl_resolve (address : Nat) (sites : List Nat) :
    (sites.foldl (resolve address) e).code.size = e.code.size := by
  induction sites generalizing e with
  | nil => rfl
  | cons site sites ih => rw [List.foldl_cons, ih, code_resolve, fillIn, Array.size_setIfInBounds,
      Array.size_setIfInBounds]

/-- Filling in ways changes no other bytes. -/
theorem getElem?_foldl_resolve {address : Nat} {sites : List Nat}
    (h : ∀ site ∈ sites, i ≠ site ∧ i ≠ site + 1) :
    (sites.foldl (resolve address) e).code[i]? = e.code[i]? := by
  induction sites generalizing e with
  | nil => rfl
  | cons site sites ih =>
      have hsite := h site List.mem_cons_self
      rw [List.foldl_cons, ih fun s hs => h s (List.mem_cons_of_mem _ hs), code_resolve,
        getElem?_fillIn_of_ne hsite.1 hsite.2]

/-- Filling in the ways of jumps that do not overlap gives each of them its own. -/
theorem hasWay_foldl_resolve {address : Nat} {sites : List Nat}
    (hapart : sites.Pairwise fun site site' => site' + 2 ≤ site)
    (hinside : ∀ site ∈ sites, site + 1 < e.code.size) (ha : a + 1 ∈ sites) :
    HasWay (sites.foldl (resolve address) e).code a (address - a) := by
  induction sites generalizing e with
  | nil => simp at ha
  | cons site sites ih =>
      rw [List.pairwise_cons] at hapart
      rw [List.foldl_cons]
      rcases List.mem_cons.1 ha with rfl | ha
      · -- the sites that are filled in later lie before this one
        have hkeep : ∀ j, a + 1 ≤ j → (sites.foldl (resolve address)
            (resolve address e (a + 1))).code[j]? = (resolve address e (a + 1)).code[j]? :=
          fun j hj => getElem?_foldl_resolve fun s hs => by
            have := hapart.1 s hs
            omega
        have hway : HasWay (fillIn e.code (a + 1) (address - a)) a (address - a) :=
          hasWay_fillIn (hinside _ List.mem_cons_self)
        have hcode : (resolve address e (a + 1)).code = fillIn e.code (a + 1) (address - a) := by
          rw [code_resolve, Int.natCast_add, Int.natCast_one, Int.add_sub_cancel]
        refine ⟨?_, ?_⟩
        · rw [hkeep _ (by omega), hcode]
          exact hway.1
        · rw [hkeep _ (by omega), hcode]
          exact hway.2
      · refine ih hapart.2 (fun s hs => ?_) ha
        have hsize := size_foldl_resolve (e := e) address [site]
        rw [List.foldl_cons, List.foldl_nil] at hsize
        rw [hsize]
        exact hinside s (List.mem_cons_of_mem _ hs)

/-- The operand of a jump is the way to the place of its label, or to itself. -/
theorem hasWay_jump {op : Opcode} {l : Label} (hop : op.isJump = true) :
    HasWay (e.jump op l).code e.pc (e.leadsTo e.pc l - e.pc) := by
  have hlen : e.pc = e.code.toList.length := Array.length_toList.symm
  rw [HasWay, ← Array.getElem?_toList, ← Array.getElem?_toList, toList_code_jump,
    Item.encode_jump _ hop, List.getElem?_append_right (by omega),
    List.getElem?_append_right (by omega), ← hlen, Nat.add_sub_cancel_left,
    Nat.add_sub_cancel_left]
  exact ⟨rfl, rfl⟩

theorem pc_jump {op : Opcode} {l : Label} (hop : op.isJump = true) :
    (e.jump op l).pc = e.pc + 3 := by
  rw [pc, ← Array.length_toList, toList_code_jump, Item.encode_jump _ hop, List.length_append,
    Array.length_toList]
  rfl

theorem getElem?_code_jump {op : Opcode} {l : Label} (h : i < e.pc) :
    (e.jump op l).code[i]? = e.code[i]? := by
  have hi : i < e.code.toList.length := Array.length_toList.symm ▸ h
  rw [← Array.getElem?_toList, toList_code_jump, List.getElem?_append_left hi,
    Array.getElem?_toList]

end Emitter

namespace CodeStep

/-! ### Every step keeps the ways right -/

/-- The emitter is what the steps made of an empty one. -/
structure Patched (t : List (Nat × CodeStep)) (e : Emitter) : Prop where
  placed : ∀ l p, e.address? l = some p ↔ (p, .place l) ∈ t
  waiting : ∀ l sites, e.label l = .pending sites →
    sites = ((jumpsTo l t).map (· + 1)).reverse
  known : ∀ x ∈ t, ∀ l ∈ x.2.target?, l < e.labels.size
  apart : t.Pairwise fun x y => x.1 + x.2.room ≤ y.1
  inside : ∀ x ∈ t, x.1 + x.2.room ≤ e.pc
  filled : ∀ a c l p, (a, c) ∈ t → c.target? = some l → (p, .place l) ∈ t →
    HasWay e.code a (p - a)
  clash : e.clash = none

theorem patched_empty : Patched [] .empty where
  placed := by simp [Emitter.address?, Emitter.label, Emitter.empty, LabelState.fresh,
    LabelState.address?]
  waiting := by simp [Emitter.label, Emitter.empty, LabelState.fresh, jumpsTo]
  known := by simp
  apart := .nil
  inside := by simp
  filled := by simp
  clash := rfl

/-- The label of a jump was made, and a label that is placed was made and has no place yet. -/
structure FitsIn (c : CodeStep) (e : Emitter) : Prop where
  target : ∀ l ∈ c.target?, l < e.labels.size
  placed : ∀ l ∈ c.placed?, l < e.labels.size ∧ e.address? l = none

namespace Patched

variable {t : List (Nat × CodeStep)} {e e' : Emitter} {c : CodeStep} {l : Label}

theorem apart_concat (h : Patched t e) :
    (t ++ [(e.pc, c)]).Pairwise fun x y => x.1 + x.2.room ≤ y.1 := by
  rw [List.pairwise_append]
  refine ⟨h.apart, List.pairwise_singleton _ _, fun x hx y hy => ?_⟩
  rw [List.mem_singleton.1 hy]
  exact h.inside x hx

theorem inside_concat (h : Patched t e) (hpc : e.pc + c.room ≤ e'.pc) :
    ∀ x ∈ t ++ [(e.pc, c)], x.1 + x.2.room ≤ e'.pc := by
  intro x hx
  rcases List.mem_append.1 hx with hx | hx
  · have := h.inside x hx
    omega
  · rw [List.mem_singleton.1 hx]
    exact hpc

theorem known_concat (h : Patched t e) (hc : c.FitsIn e)
    (hsize : e.labels.size ≤ e'.labels.size) :
    ∀ x ∈ t ++ [(e.pc, c)], ∀ l ∈ x.2.target?, l < e'.labels.size := by
  intro x hx l hl
  rcases List.mem_append.1 hx with hx | hx
  · exact (h.known x hx l hl).trans_le hsize
  · rw [List.mem_singleton.1 hx] at hl
    exact (hc.target l hl).trans_le hsize

/-- The jumps to a label that were taken lie in the code, one behind the other. -/
theorem sites_inside (h : Patched t e) {site : Nat}
    (hsite : site ∈ ((jumpsTo l t).map (· + 1)).reverse) : site + 1 < e.code.size := by
  rw [List.mem_reverse, List.mem_map] at hsite
  rcases hsite with ⟨a, ha, rfl⟩
  rcases mem_jumpsTo.1 ha with ⟨c, hc, htarget⟩
  have := h.inside _ hc
  rw [room_of_target? htarget] at this
  exact this

theorem sites_apart (h : Patched t e) : ((jumpsTo l t).map (· + 1)).reverse.Pairwise
    fun site site' => site' + 2 ≤ site := by
  rw [List.pairwise_reverse, jumpsTo, List.map_map, List.pairwise_map]
  refine (h.apart.filter _).imp_of_mem fun {x y} hx hy hxy => ?_
  have htarget : x.2.target? = some l := by simpa using (List.mem_filter.1 hx).2
  rw [room_of_target? htarget] at hxy
  simp only [Function.comp_apply]
  omega

/-- A way that is filled in is still there as long as the bytes written so far are. -/
theorem hasWay_of_keeps (h : Patched t e) {a p : Nat} (ha : (a, c) ∈ t)
    (hc : c.target? = some l) (hp : (p, .place l) ∈ t)
    (hkeep : ∀ i ∈ [a + 1, a + 2], e'.code[i]? = e.code[i]?) : HasWay e'.code a (p - a) := by
  have hway := h.filled a c l p ha hc hp
  rw [HasWay, hkeep _ (by simp), hkeep _ (by simp)]
  exact hway

theorem lt_pc (h : Patched t e) {a : Nat} (ha : (a, c) ∈ t) (hc : c.target? = some l) :
    a + 2 < e.pc := by
  have := h.inside _ ha
  rw [room_of_target? hc] at this
  exact this

/-- A step that neither jumps nor places a label. -/
theorem write (h : Patched t e) (htarget : c.target? = none) (hplaced : c.placed? = none)
    (hlabel : ∀ l, e'.label l = e.label l) (hsize : e.labels.size ≤ e'.labels.size)
    (hpc : e.pc ≤ e'.pc) (hcode : ∀ i < e.pc, e'.code[i]? = e.code[i]?)
    (hclash : e'.clash = e.clash) : Patched (t ++ [(e.pc, c)]) e' := by
  have hne : ∀ l, c ≠ .place l := by
    rintro l rfl
    simp [placed?] at hplaced
  have hmem : ∀ {l p}, (p, CodeStep.place l) ∈ t ++ [(e.pc, c)] ↔ (p, CodeStep.place l) ∈ t := by
    simp [fun l => Ne.symm (hne l)]
  exact
    { placed := by
        intro l p
        rw [hmem, ← h.placed, Emitter.address?, hlabel, Emitter.address?]
      waiting := by
        intro l sites hl
        rw [hlabel] at hl
        rw [jumpsTo_concat, htarget, if_neg (by simp), List.append_nil, h.waiting l sites hl]
      known := h.known_concat ⟨by simp [htarget], by simp [hplaced]⟩ hsize
      apart := h.apart_concat
      inside := h.inside_concat (by rwa [room_of_isPlain htarget])
      filled := by
        intro a c' l p ha hc hp
        rcases List.mem_append.1 ha with ha | ha
        · have hlt := h.lt_pc ha hc
          refine h.hasWay_of_keeps ha hc (hmem.1 hp) fun i hi => hcode i ?_
          simp only [List.mem_cons, List.not_mem_nil, or_false] at hi
          omega
        · rw [(Prod.mk.inj (List.mem_singleton.1 ha)).2, htarget] at hc
          cases hc
      clash := hclash.trans h.clash }

theorem jump (h : Patched t e) {op : Opcode} (htarget : c.target? = some l)
    (hop : op.isJump = true) (hl : l < e.labels.size) :
    Patched (t ++ [(e.pc, c)]) (e.jump op l) := by
  have hmem : ∀ {m p}, (p, CodeStep.place m) ∈ t ++ [(e.pc, c)] ↔ (p, CodeStep.place m) ∈ t := by
    simp [fun m => Ne.symm (ne_place_of_target? (m := m) htarget)]
  have haddress : ∀ m, (e.jump op l).address? m = e.address? m := fun m =>
    (Emitter.address?_write (i := .jump op l) ⟨hop, hl⟩).trans (if_neg Item.noConfusion)
  have hsize : (e.jump op l).labels.size = e.labels.size :=
    Emitter.size_labels_write (.jump op l)
  exact
    { placed := by
        intro m p
        rw [hmem, ← h.placed, haddress]
      waiting := by
        intro m sites hm
        rw [Emitter.label_jump hl] at hm
        rw [jumpsTo_concat, htarget]
        cases hlabel : e.label l with
        | placed address =>
            simp only [hlabel] at hm
            have hne : ¬some l = some m := by
              rintro ⟨⟩
              rw [hlabel] at hm
              cases hm
            rw [if_neg hne, List.append_nil, h.waiting m sites hm]
        | pending old =>
            simp only [hlabel] at hm
            by_cases hml : m = l
            · subst hml
              rw [if_pos rfl, LabelState.pending.injEq] at hm
              rw [if_pos rfl, ← hm, h.waiting m old hlabel]
              simp
            · rw [if_neg hml] at hm
              rw [if_neg (by simpa using Ne.symm hml), List.append_nil, h.waiting m sites hm]
      known := h.known_concat
        ⟨by simpa [htarget] using hl, by cases c <;> simp_all [target?, placed?]⟩ hsize.ge
      apart := h.apart_concat
      inside := h.inside_concat (by rw [room_of_target? htarget, Emitter.pc_jump hop])
      filled := by
        intro a c' m p ha hc hp
        rw [hmem] at hp
        rcases List.mem_append.1 ha with ha | ha
        · have hlt := h.lt_pc ha hc
          refine h.hasWay_of_keeps ha hc hp fun i hi => Emitter.getElem?_code_jump ?_
          simp only [List.mem_cons, List.not_mem_nil, or_false] at hi
          omega
        · rcases Prod.mk.inj (List.mem_singleton.1 ha) with ⟨rfl, rfl⟩
          obtain rfl : l = m := Option.some.inj (htarget.symm.trans hc)
          have hway := Emitter.hasWay_jump (e := e) (l := l) hop
          rwa [Emitter.leadsTo, (h.placed l p).2 hp] at hway
      clash := (Emitter.clash_jump e op l).trans h.clash }

/-- The jumps to a label that has no place yet wait for it. -/
theorem sites_eq (h : Patched t e) (hl : e.address? l = none) :
    e.label l = .pending ((jumpsTo l t).map (· + 1)).reverse := by
  rcases Emitter.address?_eq_none.1 hl with ⟨sites, hsites⟩
  rw [hsites, h.waiting l sites hsites]

theorem place_eq (h : Patched t e) (hl : e.address? l = none) : e.place l =
    ((jumpsTo l t).map (· + 1)).reverse.foldl (Emitter.resolve e.pc) (e.setLabel l (.placed e.pc)) := by
  rw [Emitter.place, h.sites_eq hl]

/-- Placing a label writes nothing but the ways of the jumps to it. -/
theorem getElem?_code_place (h : Patched t e) (hl : e.address? l = none) {i : Nat}
    (hi : ∀ a ∈ jumpsTo l t, i ≠ a + 1 ∧ i ≠ a + 2) : (e.place l).code[i]? = e.code[i]? := by
  rw [h.place_eq hl]
  refine Emitter.getElem?_foldl_resolve fun site hsite => ?_
  rw [List.mem_reverse, List.mem_map] at hsite
  rcases hsite with ⟨a, ha, rfl⟩
  exact hi a ha

theorem pc_place (h : Patched t e) (hl : e.address? l = none) : (e.place l).pc = e.pc := by
  rw [h.place_eq hl]
  exact Emitter.size_foldl_resolve _ _

/-- No two jumps overlap. -/
theorem disjoint (h : Patched t e) {a b : Nat} {d : CodeStep} {m : Label} (ha : (a, c) ∈ t)
    (hc : c.target? = some l) (hb : (b, d) ∈ t) (hd : d.target? = some m) (hne : l ≠ m) :
    a + 3 ≤ b ∨ b + 3 ≤ a := by
  have hxy : (a, c) ≠ (b, d) := by
    rintro ⟨⟩
    exact hne (Option.some.inj (hc.symm.trans hd))
  have hapart : Apart (a, c) (b, d) := (h.apart.imp fun hle => .inl hle).forall ha hb hxy
  rwa [Apart, room_of_target? hc, room_of_target? hd] at hapart

theorem place (h : Patched t e) (hl : l < e.labels.size) (haddress : e.address? l = none) :
    Patched (t ++ [(e.pc, .place l)]) (e.place l) := by
  have htarget : ∀ {a c m}, (a, c) ∈ t ++ [(e.pc, CodeStep.place l)] →
      c.target? = some m → (a, c) ∈ t := by
    intro a c m ha hc
    rcases List.mem_append.1 ha with ha | ha
    · exact ha
    · rw [(Prod.mk.inj (List.mem_singleton.1 ha)).2] at hc
      cases hc
  exact
    { placed := by
        intro m p
        have haddress' : (e.place l).address? m = if m = l then some e.pc else e.address? m := by
          rw [Emitter.address?, Emitter.label_place hl haddress]
          split <;> rfl
        rw [haddress', List.mem_append, List.mem_singleton, Prod.mk.injEq, CodeStep.place.injEq,
          ← h.placed]
        by_cases hm : m = l
        · subst hm
          simp [haddress, eq_comm]
        · simp [hm]
      waiting := by
        intro m sites hm
        rw [Emitter.label_place hl haddress] at hm
        split at hm
        · cases hm
        · rw [jumpsTo_concat, if_neg (by simp [target?]), List.append_nil, h.waiting m sites hm]
      known := h.known_concat ⟨by simp [target?], by simpa [placed?] using ⟨hl, haddress⟩⟩
        (Emitter.size_labels_write (.place l)).ge
      apart := h.apart_concat
      inside := h.inside_concat (h.pc_place haddress).ge
      filled := by
        intro a c m p ha hc hp
        replace ha := htarget ha hc
        rw [List.mem_append, List.mem_singleton, Prod.mk.injEq, CodeStep.place.injEq] at hp
        by_cases hm : m = l
        · subst hm
          have hp : p = e.pc := by
            rcases hp with hp | hp
            · rw [← h.placed, haddress] at hp
              cases hp
            · exact hp.1
          subst hp
          rw [h.place_eq haddress]
          refine Emitter.hasWay_foldl_resolve h.sites_apart (fun s hs => h.sites_inside hs) ?_
          rw [List.mem_reverse, List.mem_map]
          exact ⟨a, mem_jumpsTo.2 ⟨c, ha, hc⟩, rfl⟩
        · have hp : (p, .place m) ∈ t := hp.resolve_right fun hp => hm hp.2
          refine h.hasWay_of_keeps ha hc hp fun i hi => h.getElem?_code_place haddress ?_
          intro b hb
          rcases mem_jumpsTo.1 hb with ⟨d, hb, hd⟩
          have := h.disjoint ha hc hb hd hm
          simp only [List.mem_cons, List.not_mem_nil, or_false] at hi
          omega
      clash := (Emitter.clash_place e haddress).trans h.clash }

/-- Every step keeps the ways right. -/
theorem act (h : Patched t e) (hc : c.FitsIn e) (hdoes : Does e c e') :
    Patched (t ++ [(e.pc, c)]) e' := by
  cases hdoes with
  | write hplain bs =>
      exact h.write hplain.target hplain.placed (fun _ => rfl) le_rfl (e.pc_le_append bs)
        (fun i hi => Emitter.getElem?_code_append hi) rfl
  | @call t x address hcall =>
      exact h.write rfl rfl (fun l => Emitter.label_emitTo .call address)
        (Emitter.size_labels_write (.call address)).ge (e.pc_le_emitTo _ _)
        (fun i hi => Emitter.getElem?_code_emitTo hi) (Emitter.clash_noteWay e _)
  | jump htarget hop => exact h.jump htarget hop (hc.target _ htarget)
  | newLabel =>
      exact h.write rfl rfl (Emitter.label_addLabel e) (by simp [Emitter.addLabel]) le_rfl
        (fun _ _ => rfl) rfl
  | place l => exact h.place (hc.placed l rfl).1 (hc.placed l rfl).2
  | takeFarCount => exact h.write rfl rfl (fun _ => rfl) le_rfl le_rfl (fun _ _ => rfl) rfl

/-! ### What was written stays -/

/-- A step keeps the bytes that were written but for the ways of the jumps to a label that it
places. -/
theorem keeps_act (h : Patched t e) (hc : c.FitsIn e) (hdoes : Does e c e') : e.pc ≤ e'.pc ∧
    ∀ i < e.pc, (∀ l ∈ c.placed?, ∀ a ∈ jumpsTo l t, i ≠ a + 1 ∧ i ≠ a + 2) →
      e'.code[i]? = e.code[i]? := by
  cases hdoes with
  | write hplain bs =>
      exact ⟨e.pc_le_append bs, fun i hi _ => Emitter.getElem?_code_append hi⟩
  | @call t x address hcall =>
      exact ⟨e.pc_le_emitTo _ _, fun i hi _ => Emitter.getElem?_code_emitTo hi⟩
  | jump htarget hop =>
      refine ⟨?_, fun i hi _ => Emitter.getElem?_code_jump hi⟩
      rw [Emitter.pc_jump hop]
      exact Nat.le_add_right _ _
  | newLabel => exact ⟨le_rfl, fun _ _ _ => rfl⟩
  | place l =>
      have haddress := (hc.placed l rfl).2
      exact ⟨(h.pc_place haddress).ge, fun i _ hi => h.getElem?_code_place haddress (hi l rfl)⟩
  | takeFarCount => exact ⟨le_rfl, fun _ _ _ => rfl⟩

end Patched

/-! ### Jumps that wait -/

/-- A jump to a label that is nowhere placed among the steps `t`. -/
def Waits (t : List (Nat × CodeStep)) (x : Nat × CodeStep) : Prop :=
  ∃ l, x.2.target? = some l ∧ placesOf l t = []

instance (t : List (Nat × CodeStep)) : DecidablePred (Waits t) := fun x =>
  match h : x.2.target? with
  | some l => decidable_of_iff (placesOf l t = []) (by simp [Waits, h])
  | none => isFalse (by simp [Waits, h])

end CodeStep

namespace Emitter

theorem pendingJumps_eq_sum (e : Emitter) :
    e.pendingJumps = ∑ l ∈ Finset.range e.labels.size, (e.label l).waiting := by
  have hfold : ∀ (ls : List LabelState) (n : Nat),
      ls.foldl (fun n s => n + s.waiting) n = n + (ls.map LabelState.waiting).sum := by
    intro ls
    induction ls with
    | nil => simp
    | cons s ls ih =>
        intro n
        rw [List.foldl_cons, ih, List.map_cons, List.sum_cons, Nat.add_assoc]
  have hlabels : e.labels.toList = (List.range e.labels.size).map e.label := by
    refine List.ext_getElem (by simp) fun l hl _ => ?_
    have hl' : l < e.labels.size := by simpa using hl
    simp [label, Array.getElem?_eq_getElem hl']
  rw [pendingJumps, ← Array.foldl_toList, hfold, hlabels, List.map_map, Nat.zero_add]
  rfl

end Emitter

namespace CodeStep

/-- Jumps are counted label by label. -/
theorem sum_countP_jumps {q : Label → Prop} [DecidablePred q] {n : Nat}
    {t : List (Nat × CodeStep)} (h : ∀ x ∈ t, ∀ l ∈ x.2.target?, l < n) :
    (∑ l ∈ Finset.range n, if q l then (jumpsTo l t).length else 0) =
      t.countP fun x => x.2.target?.any fun l => q l := by
  induction t with
  | nil => simp [jumpsTo]
  | cons x t ih =>
      have hx := h x List.mem_cons_self
      rw [List.countP_cons, ← ih fun y hy => h y (List.mem_cons_of_mem x hy)]
      cases htarget : x.2.target? with
      | none => simp [jumpsTo, htarget]
      | some m =>
          have hm : m < n := hx m htarget
          have hcons : ∀ l, (if q l then (jumpsTo l (x :: t)).length else 0) =
              (if q l then (jumpsTo l t).length else 0) + if m = l then (if q m then 1 else 0) else 0 := by
            intro l
            by_cases hml : m = l <;> by_cases hq : q l <;> simp_all [jumpsTo]
          simp only [hcons, Finset.sum_add_distrib, Finset.sum_ite_eq, Finset.mem_range, hm, if_true,
            Option.any_some, decide_eq_true_eq]

theorem Patched.waiting_label {t : List (Nat × CodeStep)} {e : Emitter} (h : Patched t e)
    (l : Label) : (e.label l).waiting =
      if placesOf l t = [] then (jumpsTo l t).length else 0 := by
  cases hl : e.label l with
  | pending sites =>
      have hplaces : placesOf l t = [] := by
        rw [List.eq_nil_iff_forall_not_mem]
        intro p hp
        rw [mem_placesOf, ← h.placed, Emitter.address?_eq_some, hl] at hp
        cases hp
      rw [if_pos hplaces, h.waiting l sites hl]
      simp [LabelState.waiting]
  | placed p =>
      have hp : p ∈ placesOf l t := mem_placesOf.2 ((h.placed l p).1 (Emitter.address?_eq_some.2 hl))
      rw [if_neg (List.ne_nil_of_mem hp)]
      rfl

/-- The jumps that wait are those to a label without a place. -/
theorem Patched.pendingJumps_eq {t : List (Nat × CodeStep)} {e : Emitter} (h : Patched t e) :
    e.pendingJumps = t.countP fun x => Waits t x := by
  rw [e.pendingJumps_eq_sum]
  simp only [h.waiting_label]
  rw [sum_countP_jumps h.known]
  refine List.countP_congr fun x _ => ?_
  cases htarget : x.2.target? <;> simp [Waits, htarget]

/-! ### Ways that are too far -/

/-- The address at which a label is placed among some steps. -/
def placeOf? (l : Label) (t : List (Nat × CodeStep)) : Option Nat :=
  (t.find? fun x => x.2.placed? = some l).map Prod.fst

/-- The ways that a step fixes after the steps `t`: placing a label fixes those of the jumps to it,
a jump to a label that has a place fixes its own, and so does a call. -/
def fixedBy (t : List (Nat × CodeStep)) : Nat × CodeStep → List Int
  | (a, c) =>
    (c.placed?.toList.flatMap fun l => (jumpsTo l t).map fun b : Nat => (a : Int) - b) ++
      (c.target?.bind fun l => placeOf? l t).toList.map (fun p : Nat => (p : Int) - a) ++
      c.callee?.toList.map fun target : Int => target - (a : Int)

/-- The ways that some steps fix after the steps `t`. -/
def fixedAfter (t : List (Nat × CodeStep)) : List (Nat × CodeStep) → List Int
  | [] => []
  | x :: xs => fixedBy t x ++ fixedAfter (t ++ [x]) xs

theorem Patched.placeOf?_eq {t : List (Nat × CodeStep)} {e : Emitter} (h : Patched t e)
    (l : Label) : placeOf? l t = e.address? l := by
  unfold placeOf?
  cases hfind : t.find? fun x => x.2.placed? = some l with
  | some x =>
      have hx := List.mem_of_find?_eq_some hfind
      have hplaced : x.2 = .place l := placed?_eq_some.1 (by simpa using List.find?_some hfind)
      exact ((h.placed l x.1).2 (hplaced ▸ hx)).symm
  | none =>
      have hnone := List.find?_eq_none.1 hfind
      rw [Option.map_none, eq_comm, Option.eq_none_iff_forall_not_mem]
      intro p hp
      exact hnone _ ((h.placed l p).1 hp) (by simp [placed?])

theorem target?_eq_some {c : CodeStep} {l : Label} : c.target? = some l ↔
    c = .jump l ∨ ∃ r, c = .jumpIf r l ∨ c = .jumpUnless r l := by
  cases c <;> simp [target?]

/-- A step counts the ways it fixes that are too far, or begins to count anew. -/
theorem Patched.farCount_act {t : List (Nat × CodeStep)} {e e' : Emitter} {c : CodeStep}
    (h : Patched t e) (hc : c.FitsIn e) (hdoes : Does e c e') : e'.farCount =
      if c.isTakeFarCount then 0 else e.farCount + (fixedBy t (e.pc, c)).countP Emitter.isFar := by
  cases hdoes with
  | write hplain bs =>
      simp [fixedBy, hplain.target, hplain.placed, hplain.callee, hplain.count, Emitter.append]
  | @call t x address hcall =>
      simp [fixedBy, target?, placed?, hcall, isTakeFarCount, Emitter.emitTo,
        Emitter.farCount_noteWay]
  | @jump c op l htarget hop =>
      have hfixed : fixedBy t (e.pc, c) = (e.address? l).toList.map fun p : Nat => (p : Int) - e.pc := by
        rcases target?_eq_some.1 htarget with rfl | ⟨r, rfl | rfl⟩ <;>
          simp [fixedBy, target?, placed?, callee?, h.placeOf?_eq]
      have hcount : c.isTakeFarCount = false := by
        rcases target?_eq_some.1 htarget with rfl | ⟨r, rfl | rfl⟩ <;> rfl
      rw [hfixed, hcount, Emitter.jump]
      cases hl : e.label l with
      | placed p =>
          simp [Emitter.emitTo, Emitter.farCount_noteWay, Emitter.address?, hl, LabelState.address?]
      | pending sites =>
          simp [Emitter.setLabel, Emitter.address?, hl, LabelState.address?]
  | newLabel => simp [fixedBy, target?, placed?, callee?, isTakeFarCount, Emitter.addLabel]
  | place l =>
      rw [h.place_eq (hc.placed l rfl).2, Emitter.countP_farCount_foldl_resolve]
      simp [fixedBy, target?, placed?, callee?, isTakeFarCount, Emitter.setLabel, List.countP_map,
        Function.comp_def]
  | takeFarCount => rfl

/-! ### Sequences of steps -/

theorem size_labels_act {e e' : Emitter} {c : CodeStep} (h : Does e c e') : e'.labels.size =
    if c.isNewLabel then e.labels.size + 1 else e.labels.size := by
  cases h with
  | write hplain bs => simp [hplain.label, Emitter.append]
  | @call t x address hcall => exact Emitter.size_labels_write (.call address)
  | @jump c op l htarget hop =>
      rw [isNewLabel_of_target? htarget]
      exact Emitter.size_labels_write (.jump op l)
  | newLabel => simp [isNewLabel, Emitter.addLabel]
  | place l => exact Emitter.size_labels_write (.place l)
  | takeFarCount => rfl

/-- The steps `cs` can be taken in the state that the steps `t` led to. -/
structure Reaches (t : List (Nat × CodeStep)) (s : Compiler) (cs : List CodeStep) : Prop where
  patched : Patched t s.code
  allowed : ∃ placed, Allowed s.code.labels.size placed cs ∧
    ∀ l, l ∈ placed ↔ ∃ p, (p, .place l) ∈ t

namespace Reaches

variable {t : List (Nat × CodeStep)} {s : Compiler} {c : CodeStep} {cs ds : List CodeStep}

theorem initial (h : Allowed 0 [] cs) : Reaches [] .initial cs :=
  ⟨patched_empty, [], h, by simp⟩

theorem fitsIn (h : Reaches t s (c :: cs)) : c.FitsIn s.code := by
  rcases h.allowed with ⟨placed, ⟨htarget, hplaced, -⟩, hmem⟩
  refine ⟨htarget, fun l hl => ⟨(hplaced l hl).1, ?_⟩⟩
  rw [Option.eq_none_iff_forall_not_mem]
  intro p hp
  exact (hplaced l hl).2 ((hmem l).2 ⟨p, (h.patched.placed l p).1 hp⟩)

theorem act (h : Reaches t s (c :: cs)) :
    Reaches (t ++ [(s.code.pc, c)]) (c.act s).2 cs := by
  have hdoes := does_act c s
  rcases h.allowed with ⟨placed, ⟨-, -, hrest⟩, hmem⟩
  refine ⟨h.patched.act h.fitsIn hdoes, _, size_labels_act hdoes ▸ hrest, fun l => ?_⟩
  have hlast : l ∈ c.placed?.toList ↔ .place l = c := by
    rw [Option.mem_toList, placed?_eq_some, eq_comm]
  simp only [List.mem_append, List.mem_singleton, Prod.mk.injEq, exists_or, ← hmem, hlast]
  simp [or_comm]

theorem run (h : Reaches t s (cs ++ ds)) : Reaches (t ++ trace s cs) (run s cs) ds := by
  induction cs generalizing t s with
  | nil => simpa [trace, CodeStep.run] using h
  | cons c cs ih =>
      have := ih h.act
      rwa [List.append_assoc] at this

/-- Steps keep the bytes that were written but for the ways of the jumps to the labels that they
place. -/
theorem keeps (h : Reaches t s cs) : s.code.pc ≤ (CodeStep.run s cs).code.pc ∧
    ∀ i < s.code.pc, (∀ l, .place l ∈ cs → ∀ a ∈ jumpsTo l t, i ≠ a + 1 ∧ i ≠ a + 2) →
      (CodeStep.run s cs).code.code[i]? = s.code.code[i]? := by
  induction cs generalizing t s with
  | nil => exact ⟨le_rfl, fun _ _ _ => rfl⟩
  | cons c cs ih =>
      rcases h.patched.keeps_act h.fitsIn (does_act c s) with ⟨hpc, hkeep⟩
      rcases ih h.act with ⟨hpc', hkeep'⟩
      refine ⟨hpc.trans hpc', fun i hi hne => ?_⟩
      rw [← hkeep i hi fun l hl => hne l (placed?_eq_some.1 hl ▸ List.mem_cons_self)]
      refine hkeep' i (hi.trans_le hpc) fun l hl a ha => ?_
      rw [jumpsTo_concat, List.mem_append] at ha
      rcases ha with ha | ha
      · exact hne l (List.mem_cons_of_mem c hl) a ha
      · -- the operand of a jump that is taken now lies behind the byte
        split at ha
        · rw [List.mem_singleton.1 ha]
          omega
        · cases ha

/-- Steps that do not take the count of far ways add those that they fix. -/
theorem farCount (h : Reaches t s cs) (hcs : .takeFarCount ∉ cs) :
    (CodeStep.run s cs).code.farCount =
      s.code.farCount + (fixedAfter t (trace s cs)).countP Emitter.isFar := by
  induction cs generalizing t s with
  | nil => rfl
  | cons c cs ih =>
      rw [List.mem_cons, not_or] at hcs
      have hc : c.isTakeFarCount = false := by
        cases c <;> first | rfl | exact absurd rfl hcs.1
      have hact := h.patched.farCount_act h.fitsIn (does_act c s)
      rw [hc, if_neg Bool.false_ne_true] at hact
      rw [CodeStep.run, ih h.act hcs.2, hact, trace, fixedAfter, List.countP_append, Nat.add_assoc]

end Reaches

theorem run_append (s : Compiler) (cs ds : List CodeStep) :
    run s (cs ++ ds) = run (run s cs) ds := by
  induction cs generalizing s with
  | nil => rfl
  | cons c cs ih => exact ih _

/-- A way takes the two bytes behind the operation. -/
theorem HasWay.bytes {code : Array UInt8} {a : Nat} {way : Int} (h : HasWay code a way) :
    (code.toList.drop (a + 1)).take 2 = BigEndian.bytes 2 way := by
  obtain ⟨h₁, h₂⟩ := h
  rw [← Array.getElem?_toList] at h₁ h₂
  have htwo : (code.toList.drop (a + 1)).take 2 =
      (code.toList[a + 1]?.toList ++ code.toList[a + 2]?.toList) := by
    rw [List.take_add_one, List.take_add_one, List.take_zero, List.getElem?_drop,
      List.getElem?_drop, List.nil_append]
  rw [htwo, h₁, h₂]
  rfl

/-- What the code is after some steps of work on it. -/
structure Patches (steps : List CodeStep) : Prop where
  /-- The operand of a jump to a label with a place is the way there. -/
  jumps : ∀ a c l p, (a, c) ∈ trace .initial steps → c.target? = some l →
    (p, .place l) ∈ trace .initial steps →
    ((run .initial steps).code.code.toList.drop (a + 1)).take 2 = BigEndian.bytes 2 (p - a)
  /-- The code never shrinks, and a byte that was written stays as it is unless it belongs to the
  operand of a jump whose label is placed later. -/
  keeps : ∀ before after, steps = before ++ after →
    (run .initial before).code.pc ≤ (run .initial steps).code.pc ∧
      ∀ i < (run .initial before).code.pc,
        (∀ l, .place l ∈ after → ∀ a ∈ jumpsTo l (trace .initial before), i ≠ a + 1 ∧ i ≠ a + 2) →
        (run .initial steps).code.code[i]? = (run .initial before).code.code[i]?
  /-- The jumps that wait are those to labels without a place. -/
  pending : (run .initial steps).code.pendingJumps =
    (trace .initial steps).countP fun x => Waits (trace .initial steps) x
  /-- The code can be made an image unless a jump waits. -/
  image : (run .initial steps).code.toImage =
    if (run .initial steps).code.pendingJumps = 0 then .ok
      { dataSize := Int32.ofNat (run .initial steps).code.dataSize
        entry := ((run .initial steps).code.entry.map Int32.ofNat).getD (-1)
        code := (run .initial steps).code.code }
    else .error (.unresolved (run .initial steps).code.pendingJumps)
  /-- The count of ways that are too far is that of the ways fixed since it was last taken. -/
  far : ∀ before after, steps = before ++ after →
    (before = [] ∨ before.getLast? = some .takeFarCount) → .takeFarCount ∉ after →
    (Compiler.takeFarCount (run .initial steps)).1 =
      (fixedAfter (trace .initial before) (trace (run .initial before) after)).countP Emitter.isFar

theorem Patched.toImage_eq {t : List (Nat × CodeStep)} {e : Emitter} (h : Patched t e) :
    e.toImage = if e.pendingJumps = 0 then .ok
      { dataSize := Int32.ofNat e.dataSize
        entry := (e.entry.map Int32.ofNat).getD (-1)
        code := e.code } else .error (.unresolved e.pendingJumps) := by
  rw [Emitter.toImage, h.clash]
  by_cases hpending : e.pendingJumps = 0 <;> simp [hpending]

/-- The count of far ways is zero at the beginning and after it was taken. -/
theorem farCount_run_of_takeFarCount {steps : List CodeStep}
    (h : steps = [] ∨ steps.getLast? = some .takeFarCount) :
    (run .initial steps).code.farCount = 0 := by
  rcases h with rfl | h
  · rfl
  · rcases List.getLast?_eq_some_iff.1 h with ⟨before, rfl⟩
    rw [run_append]
    rfl

/-- Work on code that places no label twice fills in every jump when its label is placed, changes
nothing else, and counts the jumps that wait and the ways that are too far. -/
theorem patches_of_allowed {steps : List CodeStep} (h : Allowed 0 [] steps) : Patches steps := by
  have hall : Patched (trace .initial steps) (run .initial steps).code := by
    rw [← List.append_nil steps] at h
    exact (Reaches.initial h).run.patched
  have hsplit : ∀ {before after}, steps = before ++ after →
      Reaches (trace .initial before) (run .initial before) after := by
    rintro before after rfl
    exact (Reaches.initial h).run
  exact
    { jumps := fun a c l p ha hc hp => (hall.filled a c l p ha hc hp).bytes
      keeps := by
        rintro before after rfl
        rw [run_append]
        exact (hsplit rfl).keeps
      pending := hall.pendingJumps_eq
      image := hall.toImage_eq
      far := by
        rintro before after rfl hbefore hafter
        have hfar := (hsplit rfl).farCount hafter
        rw [farCount_run_of_takeFarCount hbefore, Nat.zero_add, ← run_append] at hfar
        exact hfar }

/-- A jump forwards, a jump back and a jump whose label is never placed. -/
theorem patches_of_allowed_threeJumps : Patches [.newLabel, .newLabel, .newLabel, .jump 0,
    .place 1, .put .pop, .jumpIf .eq 1, .place 0, .takeFarCount, .jump 2] :=
  patches_of_allowed (by simp [Allowed, target?, placed?, isNewLabel])

end CodeStep

end MicroJava
