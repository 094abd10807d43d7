import MiniJava.Proofs.Preservation.Frame
import MiniJava.Proofs.Preservation.Members
import MiniJava.Proofs.Preservation.Operators

/-!
# References in memory

A reference leads to a variable, a static field or a field of an object, and each of them lies at an
address (`Addresses`). The code of a reference puts that address on the stack; loading from it gives
the value that is read (`moves_value`), and storing to it is an assignment.

Lowering and evaluation find the class of a reference in different ways, by the places of variables
and by their types. `classOf_eq_ok` says that they find the same class.
-/

namespace MiniJava

open List

/-! ## Classes of references -/

variable {className name : String}

theorem Typing.Entity.className?_eq_some {entity : Typing.Entity}
    (h : entity.className? = some className) :
    entity = .value (.object className) ∨ entity = .classNamed className := by
  unfold Typing.Entity.className? at h
  split at h
  next => cases h; exact .inl rfl
  next => cases h; exact .inr rfl
  next => cases h

/-- A member with a class is a field. -/
theorem Typing.Env.field_of_member? {env : Typing.Env} {owner : String} {entity : Typing.Entity}
    (h : env.member? owner name = some entity) (hc : entity.className? = some className) :
    ∃ f, env.table.field? owner name = some f ∧ f.type = .object className := by
  unfold Typing.Env.member? at h
  split at h
  next f hf =>
    cases h
    rcases Typing.Entity.className?_eq_some hc with heq | heq
    · exact ⟨f, hf, Typing.Entity.value.inj heq⟩
    · cases heq
  next =>
    obtain ⟨_, -, rfl⟩ := Option.map_eq_some_iff.mp h
    cases hc

theorem Typing.Env.field?_of_member?_eq_none {env : Typing.Env} {owner : String}
    (h : env.member? owner name = none) : env.table.field? owner name = none := by
  unfold Typing.Env.member? at h
  split at h
  next => cases h
  next hfield => exact hfield

/-- Lowering looks for members in the class that the types give. -/
theorem classOf_eq_ok {site : Lowering.Site} {slots : ScopeStack Lowering.Slot} {env : Typing.Env}
    (htable : env.table = site.table) (hclass : env.className = site.className)
    (hlocals : ∀ name, env.locals.lookup name = (slots.lookup name).map (·.type)) (r : Ref)
    {className : String} (h : (env.entity? r).bind (·.className?) = some className) :
    site.classOf slots r = .ok className := by
  obtain ⟨entity, hentity, hname⟩ := Option.bind_eq_some_iff.mp h
  cases r with
  | this =>
    cases hentity
    cases hname
    rw [hclass]
    rfl
  | name _ text =>
    -- Both look for a variable first, then for a field of the own class, then for a class.
    have htype : site.typeOfName slots text = .object className := by
      have hlookup := hlocals text
      rw [Typing.Env.entity?, Typing.Env.name?] at hentity
      rw [Lowering.Site.typeOfName]
      split at hentity
      next type htype =>
        cases hentity
        rw [htype] at hlookup
        obtain ⟨_, hslot, rfl⟩ := Option.map_eq_some_iff.mp hlookup.symm
        rw [hslot]
        rcases Typing.Entity.className?_eq_some hname with heq | heq
        · exact Typing.Entity.value.inj heq
        · cases heq
      next hnone =>
        rw [hnone] at hlookup
        rw [Option.map_eq_none_iff.mp hlookup.symm, ← htable, ← hclass]
        split at hentity
        next hmember =>
          cases hentity
          obtain ⟨_, hf, htype⟩ := Typing.Env.field_of_member? hmember hname
          rw [hf]
          exact htype
        next hmember =>
          split at hentity
          next hcontains =>
            cases hentity
            cases hname
            rw [Typing.Env.field?_of_member?_eq_none hmember]
            exact if_pos hcontains
          next => cases hentity
    rw [Lowering.Site.classOf, htype]
    rfl
  | member _ base field =>
    obtain ⟨baseEntity, hbase, hentity⟩ := Option.bind_eq_some_iff.mp hentity
    obtain ⟨owner, howner, hmember⟩ := Option.bind_eq_some_iff.mp hentity
    have ih := classOf_eq_ok htable hclass hlocals base
      (Option.bind_eq_some_iff.mpr ⟨baseEntity, hbase, howner⟩)
    obtain ⟨_, hf, htype⟩ := Typing.Env.field_of_member? hmember hname
    rw [htable] at hf
    rw [Lowering.Site.classOf, ih]
    show Lowering.classOfType _ ((site.table.field? owner field.value).elim .error (·.type)) = _
    rw [hf, Option.elim_some, htype]
    rfl

namespace Preservation

open Semantics Execution

/-! ## Addresses -/

namespace Activation

/-- The surroundings of the running body. -/
def site (a : Activation) (S : Setting) : Site := ⟨S.table, a.className, a.receiver?⟩

/-- The surroundings of the body when its code was made. -/
def lowering (a : Activation) (S : Setting) : Lowering.Site :=
  ⟨S.table, S.area, a.className,
    if a.isStatic then none else some (Lowering.receiverOffset a.arity)⟩

end Activation

/-- Where a place lies in memory. The receiver is known as a value only. -/
def Addresses (S : Setting) (a : Activation) (bound : ScopeStack Cell) : Place → Nat → Prop
  | .receiver, _ => False
  | .variable name, address => ∃ c, bound.lookup name = some c ∧
      address = S.layout.slot (S.statics + a.position S.layout c.index)
  | .static className name, address => ∃ i, S.area.fields[i]? = some (className, name) ∧
      address = S.layout.slot i
  | .field place className name, address => ∃ j, (fieldNames S.table className)[j]? = some name ∧
      address = S.layout.place place + 8 * j

variable {place : Place} {value : Value} {r : Ref} {address : Nat}

section

variable {S : Setting} {a : Activation} {spare : Nat} {frame : Lowering.Frame}
  {bound : ScopeStack Cell} {cells temps : List Word} {st : State} {rbp : Word} {v : View}

theorem classOf_of_classOf? (h : (a.site S).classOf? (bound.map Cell.var) r = some className) :
    (a.lowering S).classOf (bound.map (Cell.slot a.arity)) r = .ok className := by
  refine classOf_eq_ok rfl rfl ?_ r h
  intro _
  simp only [ScopeStack.lookup_map, Option.map_map]
  rfl

/-- One more word fits on the stack. -/
theorem Activation.InRoom.push (h : a.InRoom S spare) (harity : a.arity ≤ cells.length)
    (hsize : cells.length + temps.length < S.program.nodes) :
    S.statics + (a.words S cells ++ temps).length < S.layout.room := by
  have hroom := h.room
  rw [length_append, Activation.length_words harity]
  omega

theorem getElem?_field {L : Layout} {table : ClassTable} {j : Nat}
    (hj : (fieldNames table className)[j]? = some name) (fields : String → Value) :
    (blockWords L table (.object className fields))[j]? = some (encode L (fields name)) := by
  have hlt := (List.getElem?_eq_some_iff.mp hj).1
  rw [blockWords, List.getElem?_append_left (by rw [List.length_map]; exact hlt), getElem?_map, hj]
  rfl

theorem Holds.arity_le (h : Holds S.layout a.arity frame bound cells) : a.arity ≤ cells.length := by
  rw [h.length]
  exact Nat.le_add_right _ _

section

variable (h : S.Matches rbp st (a.words S cells ++ temps) v)
include h

theorem Setting.Matches.getElem?_cell (harity : a.arity ≤ cells.length) {index : Nat} {w : Word}
    (hcell : cells[index]? = some w) :
    v.stack[S.statics + a.position S.layout index]? = some w := by
  have hword := (Activation.getElem?_words (S := S) harity index).trans hcell
  rw [h.getElem?_stack, List.getElem?_append_left (List.getElem?_eq_some_iff.mp hword).1, hword]

omit h in
theorem Setting.Matches.getElem?_static {words : List Word} (h : S.Matches rbp st words v) {i : Nat}
    (hi : S.area.fields[i]? = some (className, name)) :
    v.stack[i]? = some (encode S.layout (st.statics className name)) := by
  have hword : (staticWords S.layout S.area st)[i]? =
      some (encode S.layout (st.statics className name)) := by
    rw [staticWords, getElem?_map, hi]
    rfl
  rw [h.stack, List.getElem?_append_left (List.getElem?_eq_some_iff.mp hword).1, hword]

/-- What is loaded from the address of a place is the value that is read there. -/
theorem Setting.Matches.load (hholds : Holds S.layout a.arity frame bound cells)
    (haddress : Addresses S a bound place address)
    (hread : (a.site S).read (bound.map Cell.var) st place = .ok value)
    (hrax : v.regs .rax = BitVec.ofNat 64 address) :
    Does S.loaded.sys S.loaded.layout (.load .rax ⟨.rax, 0⟩) v
      (v.set .rax (encode S.layout value)) := by
  cases place with
  | receiver => exact haddress.elim
  | «variable» =>
    obtain ⟨_, hc, rfl⟩ := haddress
    rw [Site.read, ScopeStack.lookup_map, hc] at hread
    cases hread
    exact does_load_slot h.fits_view (by decide) (View.address_of_zero hrax (h.slot_lt _))
      (h.getElem?_cell hholds.arity_le (hholds.held.lookup hc)) (by decide)
  | static =>
    obtain ⟨_, hi, rfl⟩ := haddress
    cases hread
    exact does_load_slot h.fits_view (by decide) (View.address_of_zero hrax (h.slot_lt _))
      (h.getElem?_static hi) (by decide)
  | field =>
    obtain ⟨_, hj, rfl⟩ := haddress
    -- The object has to be of the class of the field, or reading gets stuck.
    rw [Site.read] at hread
    split at hread
    next fields hblock =>
      split at hread
      next heq =>
        cases hread
        subst heq
        have hk := h.getElem?_heap hblock
        have hword := getElem?_field (L := S.layout) hj fields
        have hlt := h.block_address_lt hk (List.getElem?_eq_some_iff.mp hword).1
        exact does_load_block (by decide) (View.address_of_zero hrax hlt) hk hword (by decide)
      next => cases hread
    next => cases hread

theorem Setting.Matches.set_stack (harity : a.arity ≤ cells.length) {index : Nat}
    (hindex : index < cells.length) (w : Word) :
    v.stack.set (S.statics + a.position S.layout index) w =
      staticWords S.layout S.area st ++ (a.words S (cells.set index w) ++ temps) := by
  have hlength : (staticWords S.layout S.area st).length = S.statics := length_staticWords _ _ _
  have hword := (Activation.getElem?_words (S := S) harity index).trans (getElem?_eq_getElem hindex)
  rw [h.stack, set_append_right _ _ (by omega), hlength, Nat.add_sub_cancel_left,
    List.set_append_left _ _ (List.getElem?_eq_some_iff.mp hword).1, Activation.set_words harity]

/-- What is stored at the address of a place is written there. -/
theorem Setting.Matches.store (hholds : Holds S.layout a.arity frame bound cells)
    (haddress : Addresses S a bound place address) {vars : ScopeStack Var} {st' : State}
    (hwrite : Site.write (bound.map Cell.var) st value place = .ok (vars, st'))
    (hfit : S.layout.Fits (st'.sizes S.table)) (hrax : v.regs .rax = BitVec.ofNat 64 address)
    (hrcx : v.regs .rcx = encode S.layout value) :
    ∃ bound' cells' v', Does S.loaded.sys S.loaded.layout (.store ⟨.rax, 0⟩ .rcx) v v' ∧
      S.Matches rbp st' (a.words S cells' ++ temps) v' ∧ vars = bound'.map Cell.var ∧
      Holds S.layout a.arity frame bound' cells' := by
  cases place with
  | receiver => exact haddress.elim
  | «variable» name =>
    obtain ⟨c, hc, rfl⟩ := haddress
    rw [Site.write, ScopeStack.lookup_map, hc] at hwrite
    cases hwrite
    have hcell := hholds.held.lookup hc
    have hindex := (List.getElem?_eq_some_iff.mp hcell).1
    have hlt := (List.getElem?_eq_some_iff.mp (h.getElem?_cell hholds.arity_le hcell)).1
    refine ⟨bound.set name { c with value := value }, cells.set c.index (encode S.layout value), _,
      does_store_slot h.fits_view (by decide) (View.address_of_zero hrax (h.slot_lt _))
      hlt (by decide), ?_, ?_, hholds.write hc value⟩
    · rw [hrcx]
      exact h.of_eq (h.set_stack hholds.arity_le hindex _) rfl rfl rfl rfl
    · exact (ScopeStack.map_set Cell.var bound name { c with value := value }).symm
  | static =>
    obtain ⟨i, hi, rfl⟩ := haddress
    cases hwrite
    have hlt := (List.getElem?_eq_some_iff.mp (h.getElem?_static hi)).1
    have hi' := (List.getElem?_eq_some_iff.mp hi).1
    refine ⟨bound, cells, _,
      does_store_slot h.fits_view (by decide) (View.address_of_zero hrax (h.slot_lt _))
      hlt (by decide), ⟨?_, h.heap, h.output, h.rbp, h.r15, hfit⟩, rfl, hholds⟩
    show v.stack.set i (v.regs .rcx) = _
    -- The static fields are at the bottom of the stack, so nothing above them changes.
    rw [hrcx, h.stack, set_append_left _ _ (by rw [length_staticWords]; exact hi')]
    exact congrArg (· ++ _) (staticWords_setStatic
      (isTableOf_of_identify S.identified) hi st value).symm
  | field place =>
    obtain ⟨j, hj, rfl⟩ := haddress
    rw [Site.write] at hwrite
    split at hwrite
    next fields hblock =>
      split at hwrite
      next heq =>
        cases hwrite
        subst heq
        have hk := h.getElem?_heap hblock
        have hword := (List.getElem?_eq_some_iff.mp (getElem?_field (L := S.layout) hj fields)).1
        refine ⟨bound, cells, _, does_store_block h.fits_view (by decide)
          (View.address_of_zero hrax (h.block_address_lt hk hword)) hk hword (by decide),
          ⟨h.stack, ?_, h.output, h.rbp, h.r15, hfit⟩, rfl, hholds⟩
        show v.heap.set place (List.set _ j (v.regs .rcx)) = _
        rw [hrcx, h.heap, State.setBlock, map_set,
          blockWords_setField (isTableOf_of_identify S.identified) hj]
      next => cases hwrite
    next => cases hwrite

end

end

/-! ## Code of references -/

section

variable {S : Setting} {a : Activation} {spare : Nat} {frame : Lowering.Frame}
  {bound : ScopeStack Cell} {cells temps : List Word} {st : State} {k : Nat} {code : LabelledCode}

/-- Code puts a word on the stack of an activation and does nothing else. -/
abbrev Activation.Pushes (S : Setting) (a : Activation) (cells temps : List Word)
    (st : State) (k : Nat) (code : LabelledCode) (word : Word) : Prop :=
  S.Moves (a.rbp S) k code st (a.words S cells ++ temps) st (a.words S cells ++ temps ++ [word])

/-- The code of a reference that is read puts its value on the stack. -/
def Activation.Reads (S : Setting) (a : Activation) (bound : ScopeStack Cell)
    (cells temps : List Word) (st : State) (k : Nat) (r : Ref) : Prop :=
  ∀ ⦃code value⦄, (a.lowering S).valueCode (bound.map (Cell.slot a.arity)) r = .ok code →
    (a.site S).readRef (bound.map Cell.var) st r = .ok value →
    a.Pushes S cells temps st k code (encode S.layout value)

/-- The address of an operand is put on the stack. -/
theorem Setting.Matches.pushAddress {words : List Word} {rbp : Word} {v : View}
    (h : S.Matches rbp st words v) (hroom : S.statics + words.length < S.layout.room) {src : Mem}
    (hbase : src.base ≠ .rsp) {w : Word} (hw : BitVec.ofNat 64 (v.address src) = w) :
    ∃ v', S.loaded.DoesAll [.lea .rax src, .pushReg .rax] v v' ∧
      S.Matches rbp st (words ++ [w]) v' := by
  have hv₁ : S.Matches rbp st words (v.set .rax w) := h.of_eq h.stack rfl rfl rfl rfl
  obtain ⟨v₂, hpush, hv₂, -⟩ := hv₁.push hroom (r := .rax) (by decide)
  exact ⟨v₂, .cons (hw ▸ does_lea (by decide) hbase) (.cons hpush (.nil _)), hv₂⟩

/-- Only the receiver is known as a value. -/
theorem eq_this_of_refCode {site : Lowering.Site} {slots : ScopeStack Lowering.Slot}
    (h : site.refCode slots r = .ok (code, .value)) :
    ∃ span, r = .this span ∧ site.receiverCode span = .ok code := by
  cases r with
  | this span =>
    obtain ⟨_, hreceiver, ⟨⟩⟩ := bind_eq_ok.mp h
    exact ⟨span, rfl, hreceiver⟩
  | name =>
    rw [Lowering.Site.refCode] at h
    split at h
    next => cases h
    next => obtain ⟨fieldCode, -, ⟨⟩⟩ := bind_eq_ok.mp h
  | member =>
    obtain ⟨_, -, _, -, ⟨⟩⟩ := bind₂_eq_ok.mp h

variable (hroom : a.InRoom S spare) (hholds : Holds S.layout a.arity frame bound cells)
  (hsize : cells.length + temps.length < S.program.nodes)
include hroom hholds hsize

/-- The address of a place on the stack is replaced by the value that is read there. -/
theorem moves_readAddress (haddress : Addresses S a bound place address)
    (hread : (a.site S).read (bound.map Cell.var) st place = .ok value) :
    S.Moves (a.rbp S) k Lowering.readAddress st
      (a.words S cells ++ temps ++ [BitVec.ofNat 64 address]) st
      (a.words S cells ++ temps ++ [encode S.layout value]) := by
  refine Setting.moves_ops fun v hv => ?_
  obtain ⟨v₁, hpop, hv₁, hrax₁, -⟩ := hv.pop (r := .rax) (by decide)
  have hload := hv₁.load hholds haddress hread hrax₁
  have hv₂ : S.Matches (a.rbp S) st (a.words S cells ++ temps)
      (v₁.set .rax (encode S.layout value)) := hv₁.of_eq hv₁.stack rfl rfl rfl rfl
  obtain ⟨v₃, hpush, hv₃, -⟩ := hv₂.push (hroom.push hholds.arity_le hsize) (r := .rax) (by decide)
  exact ⟨v₃, .cons hpop (.cons hload (.cons hpush (.nil _))), hv₃⟩

/-- The receiver is put on the stack. -/
theorem moves_receiverCode {span : Span} (hcode : (a.lowering S).receiverCode span = .ok code)
    (hvalue : (a.site S).receiver = .ok value) :
    a.Pushes S cells temps st k code (encode S.layout value) := by
  unfold Lowering.Site.receiverCode Activation.lowering at hcode
  dsimp only at hcode
  split at hcode
  next hoffset =>
    cases hcode
    split at hoffset
    next => cases hoffset
    next =>
      cases hoffset
      unfold Site.receiver Activation.site at hvalue
      dsimp only at hvalue
      split at hvalue
      next place hplace =>
        cases hvalue
        refine Setting.moves_ops fun v hv => ?_
        have hword : v.stack[S.statics + a.below.length]? =
            some (encode S.layout (.ref place)) := by
          have hreceiver := Activation.getElem?_receiver (S := S) hplace cells
          rw [hv.getElem?_stack, getElem?_append_left
            (List.getElem?_eq_some_iff.mp hreceiver).1, hreceiver]
        have hlength := hv.length_stack
        have hpush := hroom.push hholds.arity_le hsize
        refine ⟨_, .cons (does_pushMem hv.fits_view (by rw [hlength]; exact hpush)
          (show Reg.rbp ≠ .rsp by decide) (a.address_receiver hroom hv.fits hv.rbp hplace)
          hword) (.nil _), ?_⟩
        exact hv.of_eq (by rw [hv.stack, append_assoc]) rfl rfl rfl rfl
      next => cases hvalue
  next => cases hcode

/-- The address of a field is put on the stack, given that the object is if the field has one. -/
theorem moves_fieldCode {objectCode : Lowering.Result LabelledCode} {object : Result Value}
    (hobject : ∀ objCode value, objectCode = .ok objCode → object = .ok value →
      a.Pushes S cells temps st k objCode (encode S.layout value))
    (hcode : (a.lowering S).fieldCode r className name objectCode = .ok code)
    (hplace : (a.site S).fieldPlace className name object = .ok place) :
    ∃ address, Addresses S a bound place address ∧
      a.Pushes S cells temps st k code (BitVec.ofNat 64 address) := by
  have hpush := hroom.push hholds.arity_le hsize
  have hsmall := S.small
  obtain ⟨_, hf, hcases⟩ := Site.fieldPlace_eq_ok hplace
  obtain ⟨_, hf', hcode⟩ := Lowering.Site.fieldCode_eq_ok hcode
  cases hf.symm.trans hf'
  obtain ⟨hs, _, hdisp, rfl⟩ | ⟨hs, _, objCode, hoffset, hobj, rfl⟩ := hcode
  · -- A static field has its slot in the area that `r15` points to.
    rw [hs] at hcases
    obtain ⟨-, rfl⟩ | ⟨⟨⟩, -⟩ := hcases
    obtain ⟨i, hi, rfl⟩ := Lowering.StaticArea.displacement?_eq_some hdisp
    have hcount : i < S.area.fields.length := (List.getElem?_eq_some_iff.mp hi).1
    have hstatics : S.area.fields.length ≤ S.program.nodes + 1 :=
      Lowering.StaticArea.length_fields_le S.program
    refine ⟨S.layout.slot i, ⟨i, hi, rfl⟩, Setting.moves_ops fun v hv => ?_⟩
    refine hv.pushAddress hpush (show Reg.r15 ≠ .rsp by decide) ?_
    have hbelow := hv.fits.below
    have hroom := hroom.room
    unfold wordSize
    refine View.ofNat_address hv.r15 ?_ (by omega) (by omega)
    unfold Layout.slot Setting.statics at *
    omega
  · -- Any other field is found from the object, whose address the code in front has pushed.
    rw [hs] at hcases
    obtain ⟨⟨⟩, -⟩ | ⟨-, o, ho, rfl⟩ := hcases
    obtain ⟨j, hj, rfl⟩ := fieldOffset?_eq_some hoffset
    have hj' : j < (fieldNames S.table className).length := (List.getElem?_eq_some_iff.mp hj).1
    have hfields := length_fieldNames_le (isTableOf_of_identify S.identified) className
    refine ⟨S.layout.place o + 8 * j, ⟨j, hj, rfl⟩, (hobject objCode _ hobj ho).append ?_⟩
    refine Setting.moves_ops fun v hv => ?_
    obtain ⟨v₁, hpop, hv₁, hrax₁, -⟩ := hv.pop (r := .rax) (by decide)
    have haddress : BitVec.ofNat 64 (v₁.address (Lowering.memAt .rax (8 * j : Nat))) =
        BitVec.ofNat 64 (S.layout.place o + 8 * j) :=
      View.ofNat_address hrax₁ (by omega) (by omega) (by omega)
    obtain ⟨v₂, hdoes, hv₂⟩ := hv₁.pushAddress hpush (show Reg.rax ≠ .rsp by decide) haddress
    exact ⟨v₂, .cons hpop hdoes, hv₂⟩

/-- The address of a variable or of a field is put on the stack, given that the value of what
stands in front of a member is. -/
theorem moves_refCode (hbase : ∀ span base field, r = .member span base field →
      a.Reads S bound cells temps st k base)
    (hcode : (a.lowering S).refCode (bound.map (Cell.slot a.arity)) r = .ok (code, .address))
    (hplace : (a.site S).locate (bound.map Cell.var) st r = .ok place) :
    ∃ address, Addresses S a bound place address ∧
      a.Pushes S cells temps st k code (BitVec.ofNat 64 address) := by
  cases r with
  | this =>
    obtain ⟨_, -, ⟨⟩⟩ := bind_eq_ok.mp hcode
  | name _ text =>
    rw [Site.locate, ScopeStack.lookup_map] at hplace
    rw [Lowering.Site.refCode, ScopeStack.lookup_map] at hcode
    cases hc : bound.lookup text with
    | some c =>
      rw [hc] at hplace hcode
      cases hplace
      cases hcode
      have hindex := (List.getElem?_eq_some_iff.mp (hholds.held.lookup hc)).1
      refine ⟨_, ⟨c, hc, rfl⟩, Setting.moves_ops fun v hv => ?_⟩
      refine hv.pushAddress (hroom.push hholds.arity_le hsize) (show Reg.rbp ≠ .rsp by decide) ?_
      exact congrArg _ (a.address_cell hroom hv.fits hv.rbp (by omega))
    | none =>
      rw [hc] at hplace hcode
      obtain ⟨_, hfield, ⟨⟩⟩ := bind_eq_ok.mp hcode
      refine moves_fieldCode hroom hholds hsize ?_ hfield hplace
      intro _ _ hobj hvalue
      exact moves_receiverCode hroom hholds hsize hobj hvalue
  | member span base field =>
    rw [Site.locate] at hplace
    split at hplace
    next => cases hplace
    next hclass =>
      obtain ⟨_, hfound, hcode⟩ := bind_eq_ok.mp hcode
      rw [classOf_of_classOf? hclass] at hfound
      cases hfound
      obtain ⟨_, hfield, ⟨⟩⟩ := bind_eq_ok.mp hcode
      exact moves_fieldCode hroom hholds hsize (hbase span base field rfl) hfield hplace

/-- The code of a reference that is read puts its value on the stack, given that the code of what
stands in front of a member does so. -/
theorem moves_readTop (hbase : ∀ span base field, r = .member span base field →
      a.Reads S bound cells temps st k base) :
    a.Reads S bound cells temps st k r := by
  intro _ value hcode hvalue
  obtain ⟨⟨_, top⟩, href, rfl⟩ := map_eq_ok.mp hcode
  obtain ⟨_, hplace, hread⟩ := bind_eq_ok.mp hvalue
  cases top with
  | value =>
    obtain ⟨_, rfl, hreceiver⟩ := eq_this_of_refCode href
    cases hplace
    exact moves_receiverCode hroom hholds hsize hreceiver hread
  | address =>
    obtain ⟨_, haddress, hmoves⟩ := moves_refCode hroom hholds hsize hbase href hplace
    exact hmoves.append (moves_readAddress hroom hholds hsize haddress hread)

/-- The code of a reference that is read puts its value on the stack. -/
theorem moves_value (r : Ref) : a.Reads S bound cells temps st k r := by
  induction r with
  | this span | name span text =>
    exact moves_readTop hroom hholds hsize fun _ _ _ hr => by cases hr
  | member _ _ _ ih =>
    refine moves_readTop hroom hholds hsize ?_
    rintro _ _ _ ⟨⟩
    exact ih

/-- The code of a reference that is assigned to puts its address on the stack. -/
theorem moves_target
    (hcode : (a.lowering S).targetCode (bound.map (Cell.slot a.arity)) r = .ok code)
    (hplace : (a.site S).locate (bound.map Cell.var) st r = .ok place) :
    ∃ address, Addresses S a bound place address ∧
      a.Pushes S cells temps st k code (BitVec.ofNat 64 address) := by
  obtain ⟨⟨_, top⟩, href, hcode⟩ := bind_eq_ok.mp hcode
  cases top with
  | value => cases hcode
  | address =>
    cases hcode
    refine moves_refCode hroom hholds hsize ?_ href hplace
    intro _ base _ _
    exact moves_value hroom hholds hsize base

end

end Preservation

end MiniJava
