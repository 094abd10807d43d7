import MiniJava.Proofs.Lowering.Frames
import MiniJava.Proofs.Preservation.Words

/-!
# Activations

The words of a running method on the stack: those of its callers, the receiver, the
arguments, the address to go back to and the caller's frame base, and then the locals.
The arguments and the locals together are the cells of the frame, which are numbered in
the order in which they come to life. `cellOffset` is the distance of a cell from the
frame base, and `Activation.position` its place among the words.

`Holds` ties the variables of a running body to the cells: a stack of scopes that hold
both gives the variables in one translation and the frame of lowering in the other. No
two variables share a cell, hidden ones included, so that an assignment changes one
variable only (`Holds.write`).
-/

namespace MiniJava

open List

namespace Preservation

open Semantics Execution

/-- A call of a method that has not come back yet. -/
structure Activation where
  className : String
  isStatic : Bool
  receiver? : Option Nat
  arity : Nat
  /-- The words of the callers. -/
  below : List Word
  /-- The index of the instruction behind the call. -/
  back : Nat
  /-- The frame base of the caller. -/
  saved : Word

/-! ## Words of a frame -/

/-- The distance of a cell from the frame base. -/
def cellOffset (arity index : Nat) : Int :=
  if index < arity then Lowering.paramOffset arity index
  else -(wordSize * (index - arity + 1) : Nat)

/-- The word of a receiver, if there is one. -/
def receiverWords (L : Layout) (receiver? : Option Nat) : List Word :=
  receiver?.toList.map fun place => encode L (.ref place)

namespace Activation

/-- The words in front of the arguments. -/
def outside (a : Activation) (L : Layout) : List Word := a.below ++ receiverWords L a.receiver?

/-- All words on the stack above the static fields. -/
def words (a : Activation) (S : Setting) (cells : List Word) : List Word :=
  a.outside S.layout ++ cells.take a.arity ++ [BitVec.ofNat 64 (S.loaded.addr a.back), a.saved] ++
    cells.drop a.arity

/-- Where a cell lies among the words. -/
def position (a : Activation) (L : Layout) (index : Nat) : Nat :=
  (a.outside L).length + index + if index < a.arity then 0 else 2

/-- Where the saved frame base lies among the words. -/
def base (a : Activation) (L : Layout) : Nat := (a.outside L).length + a.arity + 1

variable {a : Activation} {S : Setting} {cells : List Word}

theorem length_words (h : a.arity ≤ cells.length) :
    (a.words S cells).length = (a.outside S.layout).length + 2 + cells.length := by
  simp only [words, length_append, length_take, length_drop, length_cons, length_nil]
  omega

theorem length_outside_append_take (h : a.arity ≤ cells.length) :
    (a.outside S.layout ++ cells.take a.arity).length =
      (a.outside S.layout).length + a.arity := by
  rw [length_append, length_take, Nat.min_eq_left h]

theorem getElem?_words (h : a.arity ≤ cells.length) (index : Nat) :
    (a.words S cells)[a.position S.layout index]? = cells[index]? := by
  have htake := length_outside_append_take (S := S) h
  rw [words, position, append_assoc (a.outside _ ++ _)]
  split
  next =>
    -- Parameters are below the two words that the call and the entry of the method push.
    rw [getElem?_append_left (by omega), getElem?_append_right (by omega),
      getElem?_take_of_lt (by omega)]
    congr 1
    omega
  next =>
    rw [getElem?_append_right (by omega), getElem?_append_right (by simp; omega), getElem?_drop]
    congr 1
    simp only [htake, length_cons, length_nil]
    omega

theorem set_words (h : a.arity ≤ cells.length) (index : Nat) (w : Word) :
    (a.words S cells).set (a.position S.layout index) w = a.words S (cells.set index w) := by
  have htake := length_outside_append_take (S := S) h
  rw [words, words, position, append_assoc (a.outside _ ++ _), append_assoc (a.outside _ ++ _)]
  split
  next hlt =>
    rw [set_append_left _ _ (by omega), set_append_right _ _ (by omega),
      drop_set_of_lt hlt, take_set]
    congr 4
    omega
  next hge =>
    have hindex : (a.outside S.layout).length + index + 2 -
        (a.outside S.layout ++ cells.take a.arity).length -
        [BitVec.ofNat 64 (S.loaded.addr a.back), a.saved].length = index - a.arity := by
      rw [htake, length_cons, length_singleton]
      omega
    rw [set_append_right _ _ (by omega), set_append_right _ _ (by simp; omega), hindex,
      take_set_of_le (by omega), drop_set, if_neg hge]

/-- A new cell is the last word. -/
theorem words_concat (h : a.arity ≤ cells.length) (w : Word) :
    a.words S cells ++ [w] = a.words S (cells ++ [w]) := by
  rw [words, words, take_append_of_le_length h, drop_append_of_le_length h]
  simp only [append_assoc]

/-- The first cells come first. -/
theorem words_take {n : Nat} (h : a.arity ≤ n) (hn : n ≤ cells.length) :
    a.words S cells = a.words S (cells.take n) ++ cells.drop n := by
  have hdrop : cells.drop a.arity = (cells.take n).drop a.arity ++ cells.drop n := by
    rw [← drop_append_of_le_length (by rw [length_take]; omega), take_append_drop]
  rw [words, words, take_take, Nat.min_eq_left h, hdrop]
  simp only [append_assoc]

/-- Up to the address to go back to, there are the words of the callers and as many as there are
parameters. -/
theorem words_eq (h : a.arity ≤ cells.length) :
    ∃ args rest, a.words S cells = a.outside S.layout ++ args ++
        [BitVec.ofNat 64 (S.loaded.addr a.back), a.saved] ++ rest ∧ args.length = a.arity :=
  ⟨cells.take a.arity, cells.drop a.arity, rfl, by rw [length_take, Nat.min_eq_left h]⟩

end Activation

/-! ## Variables and cells -/

/-- A variable with its cell. -/
structure Cell where
  index : Nat
  type : Ty
  value : Value

namespace Cell

/-- The variable of a running body. -/
def var (c : Cell) : Var := ⟨c.type, c.value⟩

/-- The variable of lowering. -/
def slot (arity : Nat) (c : Cell) : Lowering.Slot := ⟨cellOffset arity c.index, c.type⟩

end Cell

theorem cellOffset_inj {arity i j : Nat} (h : cellOffset arity i = cellOffset arity j) : i = j := by
  unfold cellOffset Lowering.paramOffset Lowering.argumentBase wordSize at h
  split at h <;> split at h <;> omega

/-- The cells hold the values of the variables, each of which has a cell of its own. -/
structure Held (L : Layout) (bound : ScopeStack Cell) (cells : List Word) : Prop where
  held : bound.All fun c => cells[c.index]? = some (encode L c.value)
  nodup : (bound.values.map Cell.index).Nodup

variable {bound : ScopeStack Cell} {L : Layout} {name : String}

theorem Held.index_lt {cells : List Word} (h : Held L bound cells) {c : Cell}
    (hc : c ∈ bound.values) : c.index < cells.length :=
  (List.getElem?_eq_some_iff.mp (ScopeStack.all_iff.mp h.held c hc)).1

/-- A new variable has a new cell. -/
theorem Held.define {bound' : ScopeStack Cell} {cells : List Word} (h : Held L bound cells)
    {type : Ty} {v : Value} (hd : bound.define? name ⟨cells.length, type, v⟩ = some bound') :
    Held L bound' (cells ++ [encode L v]) where
  held := by
    refine ScopeStack.All.define (h.held.mono fun c hc => ?_) ?_ hd
    · rw [List.getElem?_append_left (List.getElem?_eq_some_iff.mp hc).1]
      exact hc
    · exact getElem?_concat_length
  nodup := by
    rw [ScopeStack.values_define hd, map_cons, nodup_cons]
    refine ⟨?_, h.nodup⟩
    intro hmem
    obtain ⟨_, hc, heq⟩ := mem_map.mp hmem
    exact Nat.ne_of_lt (h.index_lt hc) heq

/-- The cells of a frame hold the values of the variables. -/
structure Holds (L : Layout) (arity : Nat) (frame : Lowering.Frame) (bound : ScopeStack Cell)
    (cells : List Word) : Prop extends Held L bound cells where
  slots : frame.slots = bound.map (Cell.slot arity)
  length : cells.length = arity + frame.locals

namespace Holds

variable {L : Layout} {arity : Nat} {frame : Lowering.Frame} {bound bound' : ScopeStack Cell}
  {cells : List Word}

/-- An assignment changes the cell of its variable. -/
theorem write (h : Holds L arity frame bound cells) {c : Cell} (hc : bound.lookup name = some c)
    (v : Value) :
    Holds L arity frame (bound.set name { c with value := v })
      (cells.set c.index (encode L v)) where
  slots := by
    rw [h.slots]
    exact (ScopeStack.map_set_of_eq hc (by rfl)).symm
  length := by rw [length_set, h.length]
  held := by
    have hindex := (List.getElem?_eq_some_iff.mp (h.held.lookup hc)).1
    refine h.held.set_of_nodup h.nodup hc ?_ ?_
    · -- Another variable has another cell, so its word stays.
      exact List.getElem?_set_self hindex
    · intro _ hne hother
      rw [getElem?_set_ne (Ne.symm hne)]
      exact hother
  nodup := by
    have hsame : (bound.set name { c with value := v }).map Cell.index = bound.map Cell.index :=
      ScopeStack.map_set_of_eq hc rfl
    rw [← ScopeStack.values_map, hsame, ScopeStack.values_map]
    exact h.nodup

/-- A declaration adds a cell. -/
theorem declare (h : Holds L arity frame bound cells) {type : Ty} {v : Value}
    (hd : bound.define? name ⟨cells.length, type, v⟩ = some bound') :
    Holds L arity (frame.declare name type) bound' (cells ++ [encode L v]) where
  toHeld := h.toHeld.define hd
  slots := by
    have hoffset : -(wordSize * (frame.locals + 1) : Nat) = cellOffset arity cells.length := by
      rw [cellOffset, h.length, if_neg (by omega)]
      congr 3
      omega
    rw [Lowering.Frame.declare, h.slots, hoffset]
    exact ScopeStack.defineNew_map hd
  length := by
    rw [length_append, h.length]
    rfl

theorem push (h : Holds L arity frame bound cells) :
    Holds L arity { frame with slots := frame.slots.push } bound.push cells where
  slots := by rw [h.slots]; rfl
  length := h.length
  held := h.held.push
  nodup := h.nodup

/-- Behind a block, the variables in front of it have the cells that they had. -/
theorem outer {inner : Lowering.Frame} {cells' : List Word} (h : Holds L arity frame bound cells)
    (h' : Holds L arity inner bound' cells') (houter : inner.slots.outer = frame.slots)
    (hlocals : frame.locals ≤ inner.locals) :
    Holds L arity frame bound'.outer (cells'.take (arity + frame.locals)) where
  slots := by rw [ScopeStack.map_outer, ← h'.slots, houter]
  length := by
    rw [length_take, h'.length]
    omega
  held := by
    have hsame : bound'.outer.values.map (Cell.slot arity) =
        bound.values.map (Cell.slot arity) := by
      rw [← ScopeStack.values_map, ← ScopeStack.values_map, ScopeStack.map_outer,
        ← h'.slots, houter, h.slots]
    refine ScopeStack.all_iff.mpr fun c hc => ?_
    -- A variable that is left has a slot of the outer frame, and its cell with it.
    obtain ⟨d, hd, hslot⟩ := mem_map.mp (hsame ▸ mem_map_of_mem hc)
    have hindex : d.index = c.index := cellOffset_inj (congrArg Lowering.Slot.offset hslot)
    have hlt := h.index_lt hd
    rw [h.length, hindex] at hlt
    rw [getElem?_take_of_lt hlt]
    exact ScopeStack.all_iff.mp h'.held.outer c hc
  nodup := h'.nodup.sublist (bound'.values_outer_sublist.map _)

end Holds

/-- Parameters are bound to the first cells, here behind those that are bound already. -/
theorem exists_bound_of_bindParams {arity : Nat} {params : List Param} {args done : List Value}
    {vars : ScopeStack Var} (h : bindParams params args (bound.map Cell.var) = .ok vars)
    (harity : done.length + params.length = arity) (hheld : Held L bound (done.map (encode L))) :
    ∃ bound' : ScopeStack Cell, vars = bound'.map Cell.var ∧ args.length = params.length ∧
      (params.zipIdx done.length).foldl (fun slots (p, i) => slots.defineNew p.name.value
        ⟨Lowering.paramOffset arity i, p.type.value⟩) (bound.map (Cell.slot arity)) =
        bound'.map (Cell.slot arity) ∧
      Held L bound' ((done ++ args).map (encode L)) := by
  induction params generalizing args done bound with
  | nil =>
    cases args with
    | cons => cases h
    | nil =>
      cases h
      exact ⟨bound, rfl, rfl, rfl, by rwa [append_nil]⟩
  | cons p _ ih =>
    cases args with
    | nil => cases h
    | cons v =>
      rw [bindParams] at h
      split at h
      next next hd =>
        let c : Cell := ⟨(done.map (encode L)).length, p.type.value, v⟩
        rw [show (⟨p.type.value, v⟩ : Var) = c.var from rfl, ScopeStack.define?_map] at hd
        obtain ⟨_, hdefine, rfl⟩ := Option.map_eq_some_iff.mp hd
        have hheld₁ := hheld.define hdefine
        rw [← map_singleton, ← map_append] at hheld₁
        rw [length_cons] at harity
        obtain ⟨bound', hvars, hlength, hslots, hheld'⟩ := ih h
          (by rw [length_append, length_singleton]; omega) hheld₁
        refine ⟨bound', hvars, by rw [length_cons, length_cons, hlength], ?_, ?_⟩
        · have hslot : c.slot arity = ⟨Lowering.paramOffset arity done.length, p.type.value⟩ := by
            have hindex : c.index = done.length := length_map _
            rw [Cell.slot, cellOffset, hindex, if_pos (by omega)]
          rw [zipIdx_cons, foldl_cons, ← hslots, length_append, length_singleton]
          dsimp only
          rw [← hslot, ScopeStack.defineNew_map hdefine]
        · rwa [append_assoc] at hheld'
      next => cases h

/-- The frame in which a body begins holds the arguments. -/
theorem holds_ofParams {params : List Param} {args : List Value} {vars : ScopeStack Var}
    (h : bindParams params args ScopeStack.empty.push = .ok vars) :
    ∃ bound : ScopeStack Cell, vars = bound.map Cell.var ∧ args.length = params.length ∧
      Holds L params.length (.ofParams params) bound (args.map (encode L)) := by
  have hempty : Held L ScopeStack.empty.push (([] : List Value).map (encode L)) :=
    ⟨ScopeStack.all_empty.push, nodup_nil⟩
  have h : bindParams params args ((ScopeStack.empty.push : ScopeStack Cell).map Cell.var) =
      .ok vars := h
  obtain ⟨bound, hvars, hlength, hslots, hheld⟩ :=
    exists_bound_of_bindParams h (by exact Nat.zero_add params.length) hempty
  exact ⟨bound, hvars, hlength, ⟨hheld, hslots, by rw [length_map, hlength]; rfl⟩⟩

/-! ## Addresses in a frame -/

namespace Activation

/-- The frame base. -/
def rbp (a : Activation) (S : Setting) : Word :=
  BitVec.ofNat 64 (S.layout.slot (S.statics + a.base S.layout))

/-- The stack has room for all that the body may put there, and for a number of words more. -/
structure InRoom (a : Activation) (S : Setting) (spare : Nat) : Prop where
  arity : a.arity ≤ S.program.nodes
  room : S.statics + (a.outside S.layout).length + 2 + S.program.nodes + spare ≤ S.layout.room

variable {a : Activation} {S : Setting} {spare : Nat} {sizes : List Nat} {v : View}

theorem address_cell (h : a.InRoom S spare) (hfit : S.layout.Fits sizes)
    (hrbp : v.regs .rbp = a.rbp S) {index : Nat} (hindex : index < S.program.nodes) :
    v.address (Lowering.memAt .rbp (cellOffset a.arity index)) =
      S.layout.slot (S.statics + a.position S.layout index) := by
  have hsmall := S.small
  have htop := hfit.top_lt
  have hbelow := hfit.below
  have harity := h.arity
  have hroom := h.room
  unfold cellOffset Lowering.paramOffset Lowering.argumentBase wordSize
  refine View.address_of_disp hrbp ?_ ?_ ?_ ?_
  · unfold Layout.slot position base
    split <;> omega
  · unfold Layout.slot
    omega
  · split <;> omega
  · split <;> omega

theorem address_receiver (h : a.InRoom S spare) (hfit : S.layout.Fits sizes)
    (hrbp : v.regs .rbp = a.rbp S) {place : Nat} (hplace : a.receiver? = some place) :
    v.address (Lowering.memAt .rbp (Lowering.receiverOffset a.arity)) =
      S.layout.slot (S.statics + a.below.length) := by
  have hsmall := S.small
  have htop := hfit.top_lt
  have hbelow := hfit.below
  have harity := h.arity
  have hroom := h.room
  have houtside : (a.outside S.layout).length = a.below.length + 1 := by
    rw [outside, hplace, length_append]
    rfl
  unfold Lowering.receiverOffset Lowering.argumentBase wordSize
  refine View.address_of_disp hrbp ?_ ?_ ?_ ?_
  · unfold Layout.slot base
    omega
  · unfold Layout.slot
    omega
  · omega
  · omega

theorem getElem?_receiver {place : Nat} (hplace : a.receiver? = some place) (cells : List Word) :
    (a.words S cells)[a.below.length]? = some (encode S.layout (.ref place)) := by
  rw [words, outside, hplace]
  simp [receiverWords]

end Activation

end Preservation

end MiniJava
