import MiniJava.Lowering.Stmt
import MiniJava.Proofs.Preservation.Heap
import MiniJava.Proofs.Preservation.Members
import MiniJava.Proofs.Token.Tokens

/-!
# Storage

Where fields and elements lie, in bytes, and that no two of them share any (`storage_apart`).
Objects, static fields and arrays are laid out in one way: the items of a list get words one after
the other (`InTurn`). For fields the list has no item twice because the table was built, which is
the only use of the table here.

What is asked of the system when an object or an array is made, and which word an access goes to, is
read off the operations of the code (`execAll?`).
-/

namespace MiniJava

open Lowering Execution List

/-! ## Places in turn -/

/-- The items of a list, and nothing else, have places: the first item the first place, and so
on. -/
def InTurn {α β : Type} (items : List α) (place : Nat → β) (place? : α → Option β) : Prop :=
  ∀ a x, place? a = some x ↔ ∃ i, items[i]? = some a ∧ place i = x

/-- Where no item occurs twice, it is enough that every item has a place, and that this is the place
of one of its occurrences. -/
theorem inTurn_of_nodup {α β : Type} {items : List α} {place : Nat → β} {place? : α → Option β}
    (hnodup : items.Nodup) (hsome : ∀ a ∈ items, ∃ x, place? a = some x)
    (hplace : ∀ a x, place? a = some x → ∃ i, items[i]? = some a ∧ place i = x) :
    InTurn items place place? := by
  intro a x
  refine ⟨hplace a x, ?_⟩
  rintro ⟨_, hi, rfl⟩
  obtain ⟨x, hx⟩ := hsome a (List.mem_of_getElem? hi)
  obtain ⟨_, hj, rfl⟩ := hplace a x hx
  have hlt := (List.getElem?_eq_some_iff.mp hi).1
  rw [(getElem?_inj hlt hnodup).mp (hi.trans hj.symm)]
  exact hx

namespace InTurn

variable {α β : Type} {items : List α} {place : Nat → β} {place? : α → Option β}
  (h : InTurn items place place?)
include h

theorem isSome_iff (a : α) : (place? a).isSome ↔ a ∈ items := by
  rw [Option.isSome_iff_exists, mem_iff_getElem?]
  constructor
  · rintro ⟨x, hx⟩
    obtain ⟨i, hi, -⟩ := (h a x).mp hx
    exact ⟨i, hi⟩
  · rintro ⟨i, hi⟩
    exact ⟨place i, (h a _).mpr ⟨i, hi, rfl⟩⟩

theorem exists_iff (x : β) : (∃ a, place? a = some x) ↔ ∃ i < items.length, place i = x := by
  constructor
  · rintro ⟨a, ha⟩
    obtain ⟨i, hi, rfl⟩ := (h a x).mp ha
    exact ⟨i, (List.getElem?_eq_some_iff.mp hi).1, rfl⟩
  · rintro ⟨i, hi, rfl⟩
    exact ⟨items[i], (h _ _).mpr ⟨i, getElem?_eq_getElem hi, rfl⟩⟩

theorem injective (hplace : ∀ i j, place i = place j → i = j) {a b : α} {x : β}
    (ha : place? a = some x) (hb : place? b = some x) : a = b := by
  obtain ⟨i, hi, rfl⟩ := (h a x).mp ha
  obtain ⟨j, hj, heq⟩ := (h b _).mp hb
  obtain rfl := hplace j i heq
  exact Option.some.inj (hi.symm.trans hj)

end InTurn

/-! ## Fields -/

/-- The number of fields of a program. -/
def Program.fieldCount (p : Program) : Nat := (p.classes.map (·.fields.length)).sum

/-- A class of the program declares a field, static or not. -/
def Program.DeclaresField (p : Program) (className name : String) (isStatic : Bool) : Prop :=
  ∃ c ∈ p.classes, c.name.value = className ∧
    ∃ f ∈ c.fields, f.name.value = name ∧ f.isStatic = isStatic

/-- The instance fields of a class in the order of their declarations. -/
def ClassDecl.instanceNames (c : ClassDecl) : List String :=
  (c.fields.filter (!·.isStatic)).map (·.name.value)

variable {entry : ClassEntry} {m : Machine} {words : List Word} {className : String}
  {table : ClassTable} {p : Program} {c : ClassDecl}

theorem Program.length_fields_le (hc : c ∈ p.classes) :
    c.fields.length ≤ p.fieldCount :=
  le_sum_of_mem (mem_map_of_mem hc)

theorem ClassEntry.instanceFields_members (c : ClassDecl) :
    (ClassEntry.members c).instanceFields.map (·.1) = c.instanceNames := by
  rw [instanceFields, members, filter_map, map_map]
  rfl

namespace ClassTable.IsTableOf

variable {p : Program} {table : ClassTable} (h : table.IsTableOf p)
include h

/-- No class of the program has the name of a built-in one. -/
theorem name_ne_of_builtin (hb : (className, entry) ∈ builtin.classes) (hc : c ∈ p.classes) :
    c.name.value ≠ className := by
  have hnames := h.names_nodup
  rw [h.classes, map_append, map_map, nodup_append] at hnames
  exact (hnames.2.2 className (mem_map.mpr ⟨_, hb, rfl⟩) c.name.value (mem_map_of_mem hc)).symm

/-- The words of an object belong to the instance fields that the program declares for its class,
and the objects of built-in classes have none. -/
theorem instanceFields_eq (hclass : table.class? className = some entry) :
    (entry.instanceFields = [] ∧ ∀ c ∈ p.classes, c.name.value ≠ className) ∨
      ∃ c ∈ p.classes, c.name.value = className ∧
        entry.instanceFields.map (·.1) = c.instanceNames := by
  obtain hb | ⟨c, hc, rfl, rfl⟩ := h.class?_cases hclass
  · refine .inl ⟨?_, fun c hc => h.name_ne_of_builtin hb hc⟩
    simp only [builtin, mem_cons, not_mem_nil, or_false, Prod.mk.injEq] at hb
    obtain ⟨-, rfl⟩ | ⟨-, rfl⟩ | ⟨-, rfl⟩ := hb <;> rfl
  · exact .inr ⟨c, hc, rfl, ClassEntry.instanceFields_members c⟩

section

variable {className : String} {entry : ClassEntry} (hclass : table.class? className = some entry)
include hclass

theorem nodup_instanceFields : (entry.instanceFields.map (·.1)).Nodup := by
  have hnodup := Preservation.nodup_fieldNames h className
  rwa [Preservation.fieldNames, hclass] at hnodup

theorem length_instanceFields_le : entry.instanceFields.length ≤ p.fieldCount := by
  obtain ⟨hnil, -⟩ | ⟨_, hc, -, hnames⟩ := h.instanceFields_eq hclass
  · rw [hnil]
    exact Nat.zero_le _
  · rw [← length_map, hnames, ClassDecl.instanceNames, length_map]
    exact (length_filter_le _ _).trans (Program.length_fields_le hc)

theorem instanceFields_eq_of_mem (hc : c ∈ p.classes) (hname : c.name.value = className) :
    entry.instanceFields.map (·.1) = c.instanceNames := by
  obtain ⟨-, hne⟩ | ⟨_, hc', hname', hnames⟩ := h.instanceFields_eq hclass
  · exact absurd hname (hne c hc)
  · rw [h.class_unique hc hc' (hname.trans hname'.symm)]
    exact hnames

theorem mem_instanceFields_iff (name : String) :
    name ∈ entry.instanceFields.map (·.1) ↔ p.DeclaresField className name false := by
  constructor
  · intro hmem
    obtain ⟨hnil, -⟩ | ⟨c, hc, hname, hnames⟩ := h.instanceFields_eq hclass
    · rw [hnil] at hmem
      exact absurd hmem not_mem_nil
    · rw [hnames, ClassDecl.instanceNames] at hmem
      obtain ⟨f, hf, rfl⟩ := mem_map.mp hmem
      obtain ⟨hfield, hstatic⟩ := mem_filter.mp hf
      exact ⟨c, hc, hname, f, hfield, rfl, by simpa using hstatic⟩
  · rintro ⟨_, hc, hname, f, hf, rfl, hstatic⟩
    rw [h.instanceFields_eq_of_mem hclass hc hname]
    exact mem_map.mpr ⟨f, mem_filter.mpr ⟨hf, by rw [hstatic]; rfl⟩, rfl⟩

end

end ClassTable.IsTableOf

theorem ClassEntry.inTurn_fieldOffset? (hnodup : (entry.instanceFields.map (·.1)).Nodup) :
    InTurn (entry.instanceFields.map (·.1)) (wordSize * ·) entry.fieldOffset? := by
  refine inTurn_of_nodup hnodup ?_ ?_
  · intro _ hmem
    obtain ⟨field, hfield, rfl⟩ := mem_map.mp hmem
    cases hfind : entry.instanceFields.findIdx? (·.1 = field.1) with
    | none =>
      have hne := findIdx?_eq_none_iff.mp hfind field hfield
      simp at hne
    | some _ => exact ⟨_, by rw [fieldOffset?, hfind]; rfl⟩
  · intro _ _ h
    obtain ⟨i, hi, rfl⟩ := Option.map_eq_some_iff.mp h
    obtain ⟨hlt, hname, -⟩ := findIdx?_eq_some_iff_getElem.mp hi
    refine ⟨i, ?_, rfl⟩
    rw [getElem?_map, getElem?_eq_getElem hlt, Option.map_some]
    exact congrArg some (by simpa using hname)

namespace Lowering.StaticArea

theorem inTurn_displacement? {area : StaticArea} (hnodup : area.fields.Nodup) :
    InTurn area.fields (fun i => -((wordSize * (i + 1) : Nat) : Int))
      fun field => area.displacement? field.1 field.2 := by
  refine inTurn_of_nodup hnodup ?_ ?_
  · intro _ hmem
    exact exists_displacement hmem
  · intro _ _ h
    obtain ⟨i, hi, rfl⟩ := displacement?_eq_some h
    exact ⟨i, hi, rfl⟩

theorem mem_fields_iff (p : Program) (className name : String) :
    (className, name) ∈ (ofProgram p).fields ↔
      (className = ClassTable.systemClass ∧ name = ClassTable.outField) ∨
        p.DeclaresField className name true := by
  rw [ofProgram, mem_cons, Prod.mk.injEq, mem_flatMap]
  refine or_congr_right ⟨?_, ?_⟩
  · rintro ⟨c, hc, hmem⟩
    obtain ⟨f, hf, heq⟩ := mem_map.mp hmem
    obtain ⟨rfl, rfl⟩ := Prod.mk.inj heq
    obtain ⟨hfield, hstatic⟩ := mem_filter.mp hf
    exact ⟨c, hc, rfl, f, hfield, rfl, hstatic⟩
  · rintro ⟨c, hc, rfl, f, hf, rfl, hstatic⟩
    exact ⟨c, hc, mem_map.mpr ⟨f, mem_filter.mpr ⟨hf, hstatic⟩, rfl⟩⟩

theorem length_fields_le_fieldCount (p : Program) :
    (ofProgram p).fields.length ≤ p.fieldCount + 1 := by
  rw [ofProgram, length_cons, length_flatMap, Program.fieldCount]
  refine Nat.succ_le_succ (sum_le_sum fun c _ => ?_)
  rw [length_map]
  exact length_filter_le _ _

end Lowering.StaticArea

theorem toInt_disp_memAt {base : Reg} {d : Int} (h : -2 ^ 31 ≤ d) (h' : d < 2 ^ 31) :
    (memAt base d).disp.toInt = d :=
  Int32.toInt_ofInt_of_le (by omega) (by omega)

/-! ## Layouts -/

/-- The operations map new memory of a size, and its address is in `rax`. -/
def Maps (sys : System) (size : Nat) (ops : List Op) (m m' : Machine) : Prop :=
  execAll? sys ops m = some m' ∧ m'.regs .rax = BitVec.ofNat 64 (sys.place m.mappings) ∧
    m'.ranges = (sys.place m.mappings, sys.place m.mappings + size) :: m.ranges

/-- The instance fields of a class have the words of an object. -/
structure InstanceLayout (p : Program) (table : ClassTable) (className : String)
    (entry : ClassEntry) : Prop where
  /-- Static fields and unknown names have no offset. -/
  isSome_iff (name : String) :
    (entry.fieldOffset? name).isSome ↔ p.DeclaresField className name false
  injective (a b : String) (offset : Nat) (ha : entry.fieldOffset? a = some offset)
    (hb : entry.fieldOffset? b = some offset) : a = b
  exists_iff (offset : Nat) :
    (∃ name, entry.fieldOffset? name = some offset) ↔ wordSize ∣ offset ∧
    offset < entry.instanceSize
  ordered (c : ClassDecl) (hc : c ∈ p.classes) (hname : c.name.value = className) :
    c.instanceNames.Pairwise fun a b => ∃ offset offset', entry.fieldOffset? a = some offset ∧
      entry.fieldOffset? b = some offset' ∧ offset < offset'
  /-- The displacement in the code is the offset. -/
  encoded (name : String) (offset : Nat) (h : entry.fieldOffset? name = some offset) :
    (memAt .rax offset).disp.toInt = offset
  /-- A new object has room for every field. -/
  allocated : ∃ size, (∀ name offset, entry.fieldOffset? name = some offset →
    offset + wordSize ≤ size) ∧
    ∀ (site : Site) (slots : ScopeStack Slot) (span nameSpan : Span), site.table = table →
      ∃ ops, site.exprCode slots (.newObject span ⟨className, nameSpan⟩) =
        .ok (Instr.ops ops ++ pushResult) ∧ ∀ sys m, ∃ m', Maps sys size ops m m'

/-- The first operations of a program: the base of the static fields, and a number of zeros below
it. -/
def entryOps {α : Type} (count : Nat) : List (Instr α) :=
  Instr.ops (.movReg .r15 .rsp :: List.replicate count (.pushImm 0))

/-- The static fields of a program have the words that the entry code puts on the stack. -/
structure StaticLayout (p : Program) (area : StaticArea) : Prop where
  isSome_iff (className name : String) : (area.displacement? className name).isSome ↔
    (className = ClassTable.systemClass ∧ name = ClassTable.outField) ∨
      p.DeclaresField className name true
  injective (a b : String × String) (disp : Int) (ha : area.displacement? a.1 a.2 = some disp)
    (hb : area.displacement? b.1 b.2 = some disp) : a = b
  /-- The last zero is the argument of the main method. -/
  exists_iff : ∃ count : Nat,
    (∀ main, entryCode area main = entryOps count ++ Instr.ops [.pushImm 0] ++
      .call (.method main.className main.name) :: Routine.exit) ∧
    (∀ table main code, programCode table main p = .ok code → ∃ target others,
      code = entryOps count ++ Instr.ops [.pushImm 0] ++ .call target :: others) ∧
    ∀ disp, (∃ className name, area.displacement? className name = some disp) ↔
      ∃ i, 1 ≤ i ∧ i ≤ count ∧ disp = -(wordSize * i : Nat)
  /-- The displacement in the code is that of the field. -/
  encoded (className name : String) (disp : Int)
  (h : area.displacement? className name = some disp) :
    (memAt .r15 disp).disp.toInt = disp

/-- The system has addresses for new memory, away from the memory in use. -/
structure HasRoom (sys : System) (m : Machine) (size : Nat) : Prop where
  inside : sys.place m.mappings + size ≤ 2 ^ 64
  apart : ∀ range ∈ m.ranges, range.2 ≤ sys.place m.mappings ∨ sys.place m.mappings + size ≤ range.1

/-- The words on top of the stack, the topmost first. -/
def HasTop (m : Machine) (words : List Word) : Prop :=
  ∀ (j : Nat) w, words[j]? = some w → m.load?
    (m.regs .rsp + BitVec.ofNat 64 (wordSize * j)).toNat = some w

/-- The bytes of an array: its length, and then its elements. -/
def arrayBytes (n : Nat) : Nat := wordSize * (n + 1)

/-- The address of an element of the array at an address. -/
def elementSlot (start i : Nat) : Nat := start + wordSize * (i + 1)

/-- The memory of an array with a number of elements, at an address. -/
structure HasArray (m : Machine) (start n : Nat) : Prop where
  inside : start + arrayBytes n ≤ 2 ^ 64
  mem_ranges : (start, start + arrayBytes n) ∈ m.ranges

/-- The elements of an array of a length have the words behind its length. -/
structure ArrayLayout (n : Nat) : Prop where
  /-- A new array has its length in the first word. -/
  allocated (site : Site) (slots : ScopeStack Slot) (span : Span)
  (element : Located Ty) (size : Expr)
    (code : LabelledCode) (hcode : site.exprCode slots size = .ok code) :
    ∃ ops, site.exprCode slots (.newArray span element size) =
        .ok (code ++ Instr.ops ops ++ pushResult) ∧
      ∀ sys m, HasTop m [BitVec.ofNat 64 n] → HasRoom sys m (arrayBytes n) →
        ∃ m', Maps sys (arrayBytes n) ops m m' ∧
          m'.memory.readWord (sys.place m.mappings) = BitVec.ofNat 64 n
  /-- Reading an element reads its word. -/
  read (site : Site) (slots : ScopeStack Slot) (span : Span) (target : Ref) (position : Expr)
    (array index : LabelledCode) (harray : site.valueCode slots target = .ok array)
    (hindex : site.exprCode slots position = .ok index) :
    ∃ ops, site.exprCode slots (.index span target position) =
        .ok (array ++ index ++ Instr.ops ops ++ pushResult) ∧
      ∀ sys m start i, HasArray m start n → i < n →
        HasTop m [BitVec.ofNat 64 i, BitVec.ofNat 64 start] →
        ∃ m', execAll? sys ops m = some m' ∧
          m'.regs .rax = m.memory.readWord (elementSlot start i) ∧ m'.memory = m.memory
  /-- Writing an element writes its word. -/
  written (site : Site) (first : Nat) (frame : Frame) (span : Span) (target : Ref)
  (position value : Expr)
    (array index code : LabelledCode) (harray : site.valueCode frame.slots target = .ok array)
    (hindex : site.exprCode frame.slots position = .ok index)
    (hcode : site.exprCode frame.slots value = .ok code) :
    ∃ ops, site.stmtCode first frame (.assignIndex span target position value) =
        .ok (array ++ index ++ code ++ Instr.ops ops, frame) ∧
      ∀ sys m start i w, HasArray m start n → i < n →
        HasTop m [w, BitVec.ofNat 64 i, BitVec.ofNat 64 start] →
        ∃ m', execAll? sys ops m = some m' ∧ m'.memory = m.memory.writeWord (elementSlot start i) w
  /-- No element is in the first word, and none ends behind the array. -/
  inside (start i : Nat) (hi : i < n) :
    start + wordSize ≤ elementSlot start i ∧ elementSlot start i + wordSize ≤ start + arrayBytes n
  apart (start i j : Nat) (hi : i < n) (hj : j < n) (hne : i ≠ j) :
    elementSlot start i + wordSize ≤ elementSlot start j ∨
      elementSlot start j + wordSize ≤ elementSlot start i

/-! ## Objects -/

/-- New memory is mapped when its size is in `rsi`. -/
theorem exists_maps (sys : System) {size : Nat} (hpos : 0 < size) (hlt : size < 2 ^ 64)
    (hrsi : m.regs .rsi = BitVec.ofNat 64 size) :
    ∃ m', Maps sys size Preservation.allocateOps m m' ∧ m'.regs .rsp = m.regs .rsp ∧
      m'.memory = m.memory.writeBytes (sys.place m.mappings) (List.replicate size 0) := by
  have hsize : (m.regs .rsi).toNat = size := by
    rw [hrsi, BitVec.toNat_ofNat, Nat.mod_eq_of_lt hlt]
  -- The operations in front of the call do no more than set the registers that it looks at.
  obtain ⟨asked, hasked, hregs, hrest⟩ : ∃ asked, execAll? sys Preservation.allocateOps m =
      (exec? sys asked .syscall >>= some) ∧ (asked.regs .rax = 9 ∧ asked.regs .rdi = 0 ∧
        asked.regs .rdx = 3 ∧ asked.regs .r10 = 0x22 ∧ asked.regs .r8 = -1 ∧ asked.regs .r9 = 0) ∧
      asked.regs .rsi = m.regs .rsi ∧ asked.regs .rsp = m.regs .rsp ∧ asked.memory = m.memory ∧
      asked.ranges = m.ranges ∧ asked.mappings = m.mappings :=
    ⟨_, rfl, ⟨rfl, BitVec.xor_self, rfl, rfl, rfl, BitVec.xor_self⟩, rfl, rfl, rfl, rfl, rfl⟩
  obtain ⟨hrax, hrdi, hrdx, hr10, hr8, hr9⟩ := hregs
  obtain ⟨hrsi', hrsp, hmemory, hranges, hmappings⟩ := hrest
  have hmap : asked.mapMemory? sys = some
      { asked.set .rax (BitVec.ofNat 64 (sys.place m.mappings)) with
        memory := m.memory.writeBytes (sys.place m.mappings) (List.replicate size 0)
        ranges := (sys.place m.mappings, sys.place m.mappings + size) :: m.ranges
        mappings := m.mappings + 1 } := by
    rw [Machine.mapMemory?, hrsi', hsize, hmemory, hranges, hmappings, if_pos]
    exact ⟨hrdi, hpos, hrdx, hr10, hr8, hr9⟩
  rw [exec?, Machine.systemCall?, hrax, if_pos rfl, hmap] at hasked
  exact ⟨_, ⟨hasked, rfl, rfl⟩, hrsp, rfl⟩

/-- The fields of an object lie in a row, and it has room for them all. -/
theorem instanceLayout (h : table.IsTableOf p) (hcount : p.fieldCount < 2 ^ 27)
    (hclass : table.class? className = some entry) : InstanceLayout p table className entry := by
  have hturn := ClassEntry.inTurn_fieldOffset? (h.nodup_instanceFields hclass)
  have hlength := h.length_instanceFields_le hclass
  have hbound : ∀ name offset, entry.fieldOffset? name = some offset →
      offset + wordSize ≤ entry.instanceSize := by
    intro name offset hoffset
    obtain ⟨_, hi, rfl⟩ := (hturn name offset).mp hoffset
    have hlt := (List.getElem?_eq_some_iff.mp hi).1
    rw [length_map] at hlt
    rw [ClassEntry.instanceSize, ← Nat.mul_succ]
    exact Nat.mul_le_mul_left _ hlt
  constructor
  case isSome_iff =>
    intro name
    rw [hturn.isSome_iff, h.mem_instanceFields_iff hclass]
  case injective =>
    intro _ _ offset
    exact hturn.injective fun i j heq => Nat.eq_of_mul_eq_mul_left (by decide) heq
  case exists_iff =>
    intro offset
    rw [hturn.exists_iff, length_map, ClassEntry.instanceSize]
    constructor
    · rintro ⟨i, hi, rfl⟩
      exact ⟨Nat.dvd_mul_right _ _, Nat.mul_lt_mul_of_pos_left hi (by decide)⟩
    · rintro ⟨⟨i, rfl⟩, hi⟩
      exact ⟨i, Nat.lt_of_mul_lt_mul_left hi, rfl⟩
  case ordered =>
    intro _ hc hname
    rw [← h.instanceFields_eq_of_mem hclass hc hname, pairwise_iff_getElem]
    intro i j hi hj hij
    refine ⟨_, _, (hturn _ _).mpr ⟨i, getElem?_eq_getElem hi, rfl⟩,
      (hturn _ _).mpr ⟨j, getElem?_eq_getElem hj, rfl⟩, ?_⟩
    exact Nat.mul_lt_mul_of_pos_left hij (by decide)
  case encoded =>
    intro name offset hoffset
    have hlt := hbound name offset hoffset
    rw [ClassEntry.instanceSize, wordSize] at hlt
    exact toInt_disp_memAt (by omega) (by omega)
  case allocated =>
    refine ⟨objectSize table className, ?_, ?_⟩
    · intro name offset hoffset
      refine (hbound name offset hoffset).trans ?_
      rw [objectSize, hclass]
      exact Nat.le_max_left _ _
    · rintro site _ _ _ rfl
      refine ⟨.movImm .rsi (Int64.ofNat (objectSize site.table className)) ::
        Preservation.allocateOps,
        rfl, ?_⟩
      intro sys m
      have hsize : objectSize site.table className < 2 ^ 64 := by
        rw [objectSize, hclass, Option.elim_some, ClassEntry.instanceSize, wordSize]
        omega
      obtain ⟨m', hmaps, -⟩ := exists_maps sys
        (m := m.set .rsi (BitVec.ofNat 64 (objectSize site.table className)))
        (Nat.lt_of_lt_of_le (by decide) (Nat.le_max_right _ wordSize)) hsize rfl
      exact ⟨m', hmaps⟩

/-! ## Static fields -/

theorem entryCode_eq (area : StaticArea) (main : MethodKey) :
    entryCode area main = entryOps area.size ++ Instr.ops [.pushImm 0] ++
      .call (.method main.className main.name) :: Routine.exit := by
  rw [entryCode, replicate_succ', ← cons_append, Instr.ops_append, append_assoc]
  rfl

/-- The code of a program begins with its entry code, linked. -/
theorem exists_programCode_eq {main : MethodKey} {code : List (Instr Nat)}
    (h : programCode table main p = .ok code) :
    ∃ index others, code = (entryCode (.ofProgram p) main).map (·.map index) ++ others := by
  obtain ⟨⟨_, _⟩, -, hlink⟩ := bind_eq_ok.mp h
  obtain rfl := Except.ok.inj ((link_eq_ok (callsEntered_of_link hlink)).symm.trans hlink)
  exact ⟨_, _, by rw [append_assoc, map_append]⟩

theorem map_ops {α β : Type} (f : α → β) (os : List Op) :
    (Instr.ops os : List (Instr α)).map (·.map f) = Instr.ops os := by
  rw [Instr.ops, map_map]
  rfl

/-- The static fields lie in a row below the bottom of the stack. -/
theorem staticLayout (h : table.IsTableOf p) (hcount : p.fieldCount < 2 ^ 27) :
    StaticLayout p (.ofProgram p) := by
  have hnodup := h.nodup_statics
  have hturn := StaticArea.inTurn_displacement? hnodup
  have hlength := StaticArea.length_fields_le_fieldCount p
  constructor
  case isSome_iff =>
    intro className name
    rw [hturn.isSome_iff (className, name), StaticArea.mem_fields_iff]
  case injective =>
    intro _ _ disp
    refine hturn.injective fun i j heq => ?_
    rw [wordSize] at heq
    omega
  case exists_iff =>
    refine ⟨(StaticArea.ofProgram p).size, entryCode_eq _, ?_, ?_⟩
    · intro _ _ _ hcode
      obtain ⟨_, _, rfl⟩ := exists_programCode_eq hcode
      rw [entryCode_eq, entryOps, ← Instr.ops_append, map_append, map_ops, Instr.ops_append,
        append_assoc]
      exact ⟨_, _, rfl⟩
    · intro disp
      have hwords := hturn.exists_iff disp
      rw [Prod.exists] at hwords
      rw [hwords, StaticArea.size, StaticArea.eraseDups_of_nodup hnodup]
      constructor
      · rintro ⟨i, hi, rfl⟩
        exact ⟨i + 1, Nat.succ_pos i, hi, rfl⟩
      · rintro ⟨i, hpos, hi, rfl⟩
        refine ⟨i - 1, by omega, ?_⟩
        rw [Nat.sub_add_cancel hpos]
  case encoded =>
    intro _ _ _ hdisp
    obtain ⟨_, hi, rfl⟩ := StaticArea.displacement?_eq_some hdisp
    have hlt := (List.getElem?_eq_some_iff.mp hi).1
    rw [wordSize]
    exact toInt_disp_memAt (by omega) (by omega)

/-! ## Arrays -/

theorem execAll?_trans {sys : System} {m₁ m₂ m₃ : Machine} {os others : List Op}
    (h : execAll? sys os m₁ = some m₂) (h' : execAll? sys others m₂ = some m₃) :
    execAll? sys (os ++ others) m₁ = some m₃ := by
  rw [execAll?_append, h]
  exact h'

theorem address_zero (m : Machine) (r : Reg) : m.address ⟨r, 0⟩ = (m.regs r).toNat :=
  congrArg BitVec.toNat (BitVec.add_zero (m.regs r))

theorem HasTop.load? {w : Word} (h : HasTop m (w :: words)) :
    m.load? (m.regs .rsp).toNat = some w := by
  have htop := h 0 w rfl
  rwa [Nat.mul_zero, BitVec.add_zero] at htop

/-- The topmost word of the stack goes into a register. -/
theorem exists_pop (sys : System) {w : Word} {r : Reg} (h : HasTop m (w :: words)) (hr : r ≠ .rsp) :
    ∃ m', exec? sys m (.popReg r) = some m' ∧ HasTop m' words ∧ m'.regs r = w ∧
      (∀ r', r' ≠ r → r' ≠ .rsp → m'.regs r' = m.regs r') ∧ m'.memory = m.memory ∧
      m'.ranges = m.ranges := by
  refine ⟨(m.set .rsp (m.regs .rsp + 8)).set r w, ?_, ?_, if_pos rfl, ?_, rfl, rfl⟩
  · rw [exec?, Machine.pop?, h.load?]
    rfl
  · intro j w' hj
    have hrsp : ((m.set .rsp (m.regs .rsp + 8)).set r w).regs .rsp = m.regs .rsp + 8 :=
      if_neg hr.symm
    have hnext := h (j + 1) w' hj
    rw [hrsp, BitVec.add_assoc, show (8 : Word) = BitVec.ofNat 64 wordSize from rfl,
      ← BitVec.ofNat_add, Nat.add_comm wordSize, ← Nat.mul_succ]
    exact hnext
  · intro _ hne hrsp
    exact (if_neg hne).trans (if_neg hrsp)

/-- The operations that compute the address in front of an element, its array and its number on top
of the stack. -/
def elementOf : List Op := [.popReg .rcx, .popReg .rax] ++ Preservation.elementOps

/-- The word of an element is found, and it may be read and written. -/
theorem exists_elementSlot (sys : System) {start n i : Nat} (h : HasArray m start n) (hi : i < n)
    (htop : HasTop m (BitVec.ofNat 64 i :: BitVec.ofNat 64 start :: words)) :
    ∃ m', execAll? sys elementOf m = some m' ∧
      m'.address (memAt .rax wordSize) = elementSlot start i ∧
      m'.accessible (elementSlot start i) 8 = true ∧ m'.memory = m.memory ∧
      m'.regs .rdx = m.regs .rdx := by
  -- The index lies above the array.
  obtain ⟨_, hpop₁, htop₁, hrcx₁, hregs₁, hmemory₁, hranges₁⟩ :=
    exists_pop sys htop (r := .rcx) (by decide)
  obtain ⟨m₂, hpop₂, -, hrax₂, hregs₂, hmemory₂, hranges₂⟩ :=
      exists_pop sys htop₁ (r := .rax) (by decide)
  have hrcx₂ := (hregs₂ .rcx (by decide) (by decide)).trans hrcx₁
  have hrdx₂ := (hregs₂ .rdx (by decide) (by decide)).trans (hregs₁ .rdx (by decide) (by decide))
  have hinside := h.inside
  rw [arrayBytes, wordSize] at hinside
  refine ⟨_, execAll?_trans ((execAll?_cons hpop₁ _).trans (execAll?_cons hpop₂ [])) rfl, ?_, ?_,
    hmemory₂.trans hmemory₁, hrdx₂⟩
  · have hsum : m₂.regs .rax + m₂.regs .rcx <<< 3 = BitVec.ofNat 64 (start + 8 * i) := by
      rw [hrax₂, hrcx₂, Preservation.ofNat_shiftLeft_three, ← BitVec.ofNat_add]
    rw [elementSlot, wordSize]
    exact address_of_disp hsum (by omega) (by omega) (by decide) (by decide)
  · show m₂.accessible _ 8 = true
    rw [Machine.accessible, hranges₂, hranges₁]
    refine any_eq_true.mpr ⟨_, h.mem_ranges, ?_⟩
    rw [Bool.and_eq_true, decide_eq_true_eq, decide_eq_true_eq, elementSlot, arrayBytes, wordSize]
    omega

/-- The operations that make an array, its length on top of the stack. -/
def newArrayOps : List Op :=
  [.load .rax ⟨.rsp, 0⟩, .aluImm .add .rax 1, .shlImm .rax 3, .movReg .rsi .rax] ++
    Preservation.allocateOps ++ [.popReg .rcx, .store ⟨.rax, 0⟩ .rcx]

/-- The words of the stack are where they were when memory is mapped somewhere else. -/
theorem HasTop.mapped {sys : System} {m' : Machine} {size : Nat} (h : HasTop m words)
    (hroom : HasRoom sys m size) (hrsp : m'.regs .rsp = m.regs .rsp)
    (hranges : m'.ranges = (sys.place m.mappings, sys.place m.mappings + size) :: m.ranges)
    (hmemory : m'.memory = m.memory.writeBytes (sys.place m.mappings) (List.replicate size 0)) :
    HasTop m' words := by
  intro j w hj
  have hload := h j w hj
  rw [Machine.load?] at hload
  split at hload
  next haccess =>
    have hword := Option.some.inj hload
    obtain ⟨range, hrange, hwithin⟩ := any_eq_true.mp haccess
    rw [Bool.and_eq_true, decide_eq_true_eq, decide_eq_true_eq] at hwithin
    have hapart := hroom.apart range hrange
    rw [Machine.load?, Machine.accessible, hrsp, hranges, hmemory, if_pos,
      Memory.readWord_writeBytes_of_apart, hword]
    · rw [length_replicate]
      omega
    · exact any_eq_true.mpr ⟨range, mem_cons_of_mem _ hrange, by simpa using hwithin⟩
  next => cases hload

theorem exists_newArray (sys : System) {n : Nat} (hn : arrayBytes n < 2 ^ 63)
    (htop : HasTop m [BitVec.ofNat 64 n]) (hroom : HasRoom sys m (arrayBytes n)) :
    ∃ m', Maps sys (arrayBytes n) newArrayOps m m' ∧
      m'.memory.readWord (sys.place m.mappings) = BitVec.ofNat 64 n := by
  -- The number of bytes is computed from the length, which stays on the stack.
  obtain ⟨m₁, hexec₁, hrsi, hrsp₁, hmemory₁, hranges₁, hmappings₁⟩ :
      ∃ m₁, execAll? sys [.load .rax ⟨.rsp, 0⟩, .aluImm .add .rax 1, .shlImm .rax 3,
      .movReg .rsi .rax] m =
        some m₁ ∧ m₁.regs .rsi = BitVec.ofNat 64 (arrayBytes n) ∧ m₁.regs .rsp = m.regs .rsp ∧
        m₁.memory = m.memory ∧ m₁.ranges = m.ranges ∧ m₁.mappings = m.mappings := by
    have hload : exec? sys m (.load .rax ⟨.rsp, 0⟩) = some (m.set .rax (BitVec.ofNat 64 n)) := by
      rw [exec?, address_zero, htop.load?]
      rfl
    refine ⟨_, execAll?_cons hload _, ?_, rfl, rfl, rfl, rfl⟩
    show (BitVec.ofNat 64 n + immediate 1) <<< 3 = _
    rw [show immediate 1 = BitVec.ofNat 64 1 by decide, ← BitVec.ofNat_add,
      Preservation.ofNat_shiftLeft_three]
    rfl
  have hpos : 0 < arrayBytes n := Nat.mul_pos (by decide) (Nat.succ_pos n)
  obtain ⟨_, ⟨hexec₂, hrax₂, hranges₂⟩, hrsp₂, hmemory₂⟩ := exists_maps sys hpos (by omega) hrsi
  rw [hmappings₁] at hrax₂
  rw [hmappings₁, hranges₁] at hranges₂
  rw [hmappings₁, hmemory₁] at hmemory₂
  -- It is then taken off and put into the first word.
  have htop₂ := htop.mapped hroom (hrsp₂.trans hrsp₁) hranges₂ hmemory₂
  obtain ⟨m₃, hpop, -, hrcx₃, hregs₃, _, hranges₃⟩ := exists_pop sys htop₂ (r := .rcx) (by decide)
  have hrax₃ : m₃.regs .rax = BitVec.ofNat 64 (sys.place m.mappings) :=
    (hregs₃ .rax (by decide) (by decide)).trans hrax₂
  have haddress : m₃.address ⟨.rax, 0⟩ = sys.place m.mappings := by
    have hinside := hroom.inside
    rw [address_zero, hrax₃, BitVec.toNat_ofNat, Nat.mod_eq_of_lt (by omega)]
  have haccess : m₃.accessible (sys.place m.mappings) 8 = true := by
    rw [Machine.accessible, hranges₃, hranges₂, any_cons, Bool.or_eq_true]
    refine .inl ?_
    rw [Bool.and_eq_true, decide_eq_true_eq, decide_eq_true_eq, arrayBytes, wordSize]
    omega
  have hstore : exec? sys m₃ (.store ⟨.rax, 0⟩ .rcx) =
      some { m₃ with
        memory := m₃.memory.writeWord (sys.place m.mappings) (BitVec.ofNat 64 n) } := by
    rw [exec?, haddress, Machine.store?, if_pos haccess, hrcx₃]
  refine ⟨_, ⟨execAll?_trans (execAll?_trans hexec₁ hexec₂)
    ((execAll?_cons hpop _).trans (execAll?_cons hstore [])), hrax₃, hranges₃.trans hranges₂⟩, ?_⟩
  exact Memory.readWord_writeWord _ _ _

/-- An array has its length in front, and its elements are read and written in place. -/
theorem arrayLayout {n : Nat} (hn : arrayBytes n < 2 ^ 63) : ArrayLayout n := by
  constructor
  case allocated =>
    intro site _ span _ _ _ hcode
    refine ⟨newArrayOps, ?_, ?_⟩
    · rw [Site.exprCode, hcode]
      simp only [newArrayOps, Instr.ops_append, append_assoc]
      rfl
    · intro sys m htop hroom
      exact exists_newArray sys hn htop hroom
  case read =>
    intro _ _ _ _ _ _ _ harray hindex
    refine ⟨elementOf ++ [.load .rax (memAt .rax wordSize)], ?_, ?_⟩
    · rw [Site.exprCode, harray, hindex]
      simp only [elementOf, Instr.ops_append, append_assoc]
      rfl
    · intro sys m start i harray hi htop
      obtain ⟨m₁, hexec, haddress, haccess, hmemory, -⟩ := exists_elementSlot sys harray hi htop
      have hload : exec? sys m₁ (.load .rax (memAt .rax wordSize)) =
          some (m₁.set .rax (m.memory.readWord (elementSlot start i))) := by
        rw [exec?, haddress, Machine.load?, if_pos haccess, hmemory]
        rfl
      exact ⟨_, execAll?_trans hexec (execAll?_cons hload []), rfl, hmemory⟩
  case written =>
    intro _ _ _ _ _ _ _ _ _ _ harray hindex hcode
    refine ⟨.popReg .rdx :: (elementOf ++ [.store (memAt .rax wordSize) .rdx]), ?_, ?_⟩
    · rw [Site.stmtCode, harray, hindex, hcode]
      simp only [elementOf, append_assoc]
      rfl
    · intro sys m start i w harray hi htop
      obtain ⟨_, hpop, htop₁, hrdx, -, hmemory₁, hranges₁⟩ :=
          exists_pop sys htop (r := .rdx) (by decide)
      obtain ⟨m₂, hexec, haddress, haccess, hmemory₂, hrdx₂⟩ :=
        exists_elementSlot sys ⟨harray.inside, hranges₁ ▸ harray.mem_ranges⟩ hi htop₁
      have hstore : exec? sys m₂ (.store (memAt .rax wordSize) .rdx) =
          some { m₂ with memory := m.memory.writeWord (elementSlot start i) w } := by
        rw [exec?, haddress, Machine.store?, if_pos haccess, hrdx₂, hrdx, hmemory₂, hmemory₁]
      exact ⟨_, (execAll?_cons hpop _).trans (execAll?_trans hexec (execAll?_cons hstore [])), rfl⟩
  case inside =>
    intro _ _ _
    rw [elementSlot, arrayBytes, wordSize]
    omega
  case apart =>
    intro _ _ _ _ _ _
    rw [elementSlot, elementSlot, wordSize]
    omega

/-! ## Programs -/

/-- No two fields share storage, and neither do two elements of an array. -/
theorem storage_apart {p : Program} {table : ClassTable} (h : ClassTable.ofProgram p = .ok table)
    (hcount : p.fieldCount < 2 ^ 27) :
    (∀ className entry, table.class? className = some entry →
      InstanceLayout p table className entry) ∧
      StaticLayout p (.ofProgram p) ∧ ∀ n, arrayBytes n < 2 ^ 63 → ArrayLayout n := by
  have htable := ClassTable.isTableOf_of_ofProgram h
  refine ⟨?_, staticLayout htable hcount, fun n hn => arrayLayout hn⟩
  intro _ _ hclass
  exact instanceLayout htable hcount hclass

/-- Static and instance fields side by side, and a static field of the same name in another
class. -/
def mixedFields : String :=
  "class A\x7bint a;static int s;int b;static int t;\x7dclass B\x7bstatic int s;\x7d"

set_option maxRecDepth 4000 in
theorem ofProgram_mixedFields :
    ∃ p table entry, parse mixedFields = .ok p ∧ ClassTable.ofProgram p = .ok table ∧
      p.fieldCount = 5 ∧ table.class? "A" = some entry ∧ entry.fieldOffset? "b" = some 8 ∧
      (StaticArea.ofProgram p).displacement? "B" "s" = some (-32) := by
  rw [parse, TokenStream.ofSource, lex_eq_tokensWithin]
  exact ⟨_, _, _, rfl, rfl, rfl, rfl, rfl, rfl⟩

theorem storage_apart_mixedFields :
    ∃ p table entry, parse mixedFields = .ok p ∧ ClassTable.ofProgram p = .ok table ∧
      p.fieldCount < 2 ^ 27 ∧ table.class? "A" = some entry ∧ entry.fieldOffset? "b" = some 8 ∧
      (StaticArea.ofProgram p).displacement? "B" "s" = some (-32) ∧
      InstanceLayout p table "A" entry ∧ StaticLayout p (.ofProgram p) ∧ ArrayLayout 3 := by
  obtain ⟨p, table, entry, hp, htable, hfields, hclass, hoffset, hdisp⟩ := ofProgram_mixedFields
  have hcount : p.fieldCount < 2 ^ 27 := by
    rw [hfields]
    decide
  obtain ⟨hinstance, hstatic, harray⟩ := storage_apart htable hcount
  exact ⟨p, table, entry, hp, htable, hcount, hclass, hoffset, hdisp,
    hinstance "A" entry hclass, hstatic, harray 3 (by decide)⟩

end MiniJava
