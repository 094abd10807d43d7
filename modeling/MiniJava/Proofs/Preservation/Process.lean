import MiniJava.Proofs.Lowering.Blocks
import MiniJava.Proofs.Preservation.Method
import MiniJava.Proofs.Token.Tokens

/-!
# Processes

A process that executes the file of a program: the entry code sets aside the static fields, calls
the main method and ends the process. All that lies between the call and its return is
`simulates_invoke`; here the code of the file is found to be a `Setting`, and the two ends are put
around the call (`exits_of_run`).

The process needs room on the stack for the depth of calls that the program reaches, and memory for
the blocks that it allocates, none of which overlap. Displacements and distances are numbers of 32
bits, so neither the program nor its file may be too long for them.
-/

namespace MiniJava

open List

open Lowering (StaticArea methodsOf keyOf)

/-! ## What is compiled -/

theorem mem_methodsOf_of_findMain {p : Program} {main : MethodKey} (h : findMain p = .ok main) :
    main ∈ (methodsOf p).map keyOf := by
  obtain ⟨_, hmem, -, rfl⟩ := findMain_eq_ok h
  exact mem_map_of_mem hmem

/-- A source that compiles has passed all phases. -/
theorem compile_eq_ok {source : String} {image : List UInt8} (h : compile source = .ok image) :
    ∃ p table main code, parse source = .ok p ∧ identify p = .ok table ∧
      typeCheck table p = [] ∧ findMain p = .ok main ∧ lower table main p = .ok code ∧
      image = Image.ofCode code := by
  obtain ⟨p, hp, table, htable, h⟩ := bind₂_eq_ok.mp h
  cases hidentify : identify p with
  | error _ => rw [hidentify] at htable; cases htable
  | ok _ =>
    rw [hidentify] at htable
    cases htable
    split at h
    next hfaults =>
      cases hgenerate : generate table p with
      | error _ => rw [hgenerate] at h; cases h
      | ok _ =>
        rw [hgenerate] at h
        cases h
        obtain ⟨main, hmain, code, hcode, ⟨⟩⟩ := bind₂_eq_ok.mp hgenerate
        exact ⟨p, table, main, code, hp, hidentify, hfaults, hmain, hcode, rfl⟩
    next => cases h

namespace Preservation

open Semantics Execution

/-! ## The code of a program -/

/-- A program that identification accepts, the code of its methods, and where they begin. -/
structure Compiled where
  program : Program
  table : ClassTable
  main : MethodKey
  methods : LabelledCode
  entries : List (MethodKey × Nat)
  identified : identify program = .ok table
  owned : program.MembersOwned
  main_mem : main ∈ (methodsOf program).map keyOf
  methodsCode : Lowering.methodsCode table (.ofProgram program)
    (Lowering.entryCode (.ofProgram program) main).length (methodsOf program) =
    .ok (methods, entries)

namespace Compiled

/-- All code, with labels. -/
def code (C : Compiled) : LabelledCode :=
    Lowering.unlinkedCode (.ofProgram C.program) C.main C.methods

/-- The index of a label. -/
def index (C : Compiled) : Label → Nat :=
  Lowering.labelIndex C.entries (Lowering.printStart (.ofProgram C.program) C.main C.methods)

/-- All code, with indices. -/
def linked (C : Compiled) : Code := C.code.map (·.map fun label => some (C.index label))

theorem linked_eq (C : Compiled) :
    C.linked = (Lowering.linkedCode (.ofProgram C.program) C.main C.methods C.entries).map
      (·.map some) := by
  rw [Lowering.linkedCode, map_map]
  refine map_congr_left fun i _ => ?_
  exact (Instr.map_map _ _ i).symm

theorem not_dangling (C : Compiled) (k : Nat) : ¬ C.linked.Dangling k := by
  rw [C.linked_eq]
  exact Lowering.not_dangling_of_target_le (Lowering.target_le_length_linkedCode C.methodsCode
    (Lowering.callsEntered_of_identify C.identified C.owned C.main_mem C.methodsCode)) k

/-- The machine code of a program is that of its methods between the entry code and the printing
routine. -/
theorem exists_of_lower {p : Program} {table : ClassTable} {main : MethodKey} {bytes : List UInt8}
    (h : identify p = .ok table) (howned : p.MembersOwned) (hmain : main ∈ (methodsOf p).map keyOf)
    (hbytes : lower table main p = .ok bytes) :
    ∃ C : Compiled, C.program = p ∧ C.table = table ∧ C.main = main ∧
      bytes = C.linked.encodeFrom 0 C.linked := by
  obtain ⟨methods, entries, hmethods, hcode⟩ := Lowering.programCode_eq_ok h howned hmain
  let C : Compiled := ⟨p, table, main, methods, entries, h, howned, hmain, hmethods⟩
  refine ⟨C, rfl, rfl, rfl, ?_⟩
  obtain ⟨_, hlinked, hbytes⟩ := bind_eq_ok.mp hbytes
  rw [hcode] at hlinked
  cases hlinked
  have hassemble := Code.assemble_ok_iff.mpr ⟨C.not_dangling, rfl⟩
  rw [C.linked_eq] at hassemble ⊢
  rw [hassemble] at hbytes
  cases hbytes
  rfl

/-- The code in the memory of a process. -/
def loaded (C : Compiled) (hsize : Code.byteSize C.linked < 2 ^ 31) (sys : System)
    (top room : Nat) : Loaded :=
  .ofCode sys top room C.code C.index (fun _ => rfl) hsize C.not_dangling

/-- The entry code comes first, then the methods, and the printing routine last. -/
theorem codeAt_parts (C : Compiled) (hsize : Code.byteSize C.linked < 2 ^ 31) (sys : System)
    (top room : Nat) :
    (C.loaded hsize sys top room).CodeAt 0 (Lowering.entryCode (.ofProgram C.program) C.main) ∧
    (C.loaded hsize sys top room).CodeAt (Lowering.entryCode (.ofProgram C.program) C.main).length
      C.methods ∧
    (C.loaded hsize sys top room).CodeAt
      (Lowering.printStart (.ofProgram C.program) C.main C.methods)
      ((Routine.printLine (Lowering.printStart (.ofProgram C.program) C.main C.methods)).map
        (·.map .index)) := by
  have hall : (C.loaded hsize sys top room).CodeAt 0 C.code := by
    intro _ _ hj
    rw [Nat.zero_add]
    exact hj
  obtain ⟨hfront, hprint⟩ := Loaded.codeAt_append.mp hall
  obtain ⟨hentry, hmethods⟩ := Loaded.codeAt_append.mp hfront
  rw [Nat.zero_add] at hmethods hprint
  rw [length_append] at hprint
  exact ⟨hentry, hmethods, hprint⟩

/-- The program with its code in the memory of a process. -/
def setting (C : Compiled) (hsmall : C.program.nodes < 2 ^ 27)
    (hsize : Code.byteSize C.linked < 2 ^ 31) (sys : System) (top room : Nat) : Setting where
  loaded := C.loaded hsize sys top room
  program := C.program
  table := C.table
  identified := C.identified
  owned := C.owned
  small := hsmall
  print := printCode_of_codeAt (C.codeAt_parts hsize sys top room).2.2
  method := by
    intro _ name m hm
    obtain ⟨c, hc, rfl, hmem, rfl⟩ := findMethod?_eq_some hm
    obtain ⟨before, own, _, hmethods, hentry, hown⟩ := Lowering.exists_methodCode_of_mem
      C.methodsCode (Lowering.mem_methodsOf.mpr ⟨c, hc, hmem, rfl⟩)
    have hkeys : (C.entries.map (·.1)).Nodup := by
      rw [(Lowering.methodsCode_spec C.methodsCode).1]
      exact (isTableOf_of_identify C.identified).nodup_methodKeys
    have hindex : (C.loaded hsize sys top room).index (.method c.name.value m.name.value) =
        (Lowering.entryCode (.ofProgram C.program) C.main).length + before.length :=
      Lowering.labelIndex_method hkeys hentry
        (Lowering.printStart (.ofProgram C.program) C.main C.methods)
    have hall := (C.codeAt_parts hsize sys top room).2.1
    rw [hmethods] at hall
    have hat := (Loaded.codeAt_append.mp (Loaded.codeAt_append.mp hall).1).2
    rw [hindex]
    exact ⟨own, hown, hat⟩

end Compiled

/-! ## The two ends of a process -/

variable {m : Machine} {P : Loaded}

/-- A process that is about to begin, as words. -/
theorem shows_of_isStart {file : LoadedImage} {top room : Nat} (h : IsStart file top room m)
    (place : Nat → Nat) :
    Shows ⟨top, room, place⟩ ⟨m.regs, m.flags, [], [], [], m.calls⟩ m where
  regs _ _ := rfl
  rsp := h.rsp
  flags := rfl
  room := Nat.zero_le _
  stack _ _ hi := nomatch hi
  heap _ _ _ _ hk _ := nomatch hk
  stackRange := by rw [h.ranges]; exact mem_singleton_self _
  heapRange _ _ hk := nomatch hk
  output := h.output
  mappings := h.mappings
  calls := rfl

/-- Zeros are put on the stack. -/
theorem doesAll_pushZeros {v : View} (hfit : P.layout.Fits v.sizes) {n : Nat}
    (hroom : v.stack.length + n ≤ P.layout.room) :
    P.DoesAll (List.replicate n (.pushImm 0)) v
      { v with stack := v.stack ++ List.replicate n 0 } := by
  induction n generalizing v with
  | zero =>
    rw [replicate_zero, replicate_zero, append_nil]
    exact .nil v
  | succ _ ih =>
    have hpush : Does P.sys P.layout (.pushImm 0) v { v with stack := v.stack ++ [0] } :=
      does_pushImm hfit (by omega) 0
    have hothers := ih (v := { v with stack := v.stack ++ [0] }) hfit (by
      rw [length_append, length_singleton]
      omega)
    rw [append_assoc, singleton_append, ← replicate_succ] at hothers
    exact .cons hpush hothers

theorem step_exit {k : Nat} (hk : P.code[k]? = some (.op .syscall)) (hrip : m.rip = P.addr k)
    (hrax : m.regs .rax = 60) :
    step? P.sys P.image m = some (.exited (m.regs .rdi) m.output) := by
  rw [step?, hrip, P.fetch k _ hk]
  simp only [Instr.map, Option.bind_eq_bind, Option.bind_some, if_pos hrax]
  rfl

/-- The last three instructions end the process. -/
theorem exists_exit {k : Nat} (hat : P.CodeAt k Routine.exit) (hrip : m.rip = P.addr k) :
    ∃ n, run? P.sys P.image n m = some (.exited 0 m.output) := by
  have hat : P.CodeAt k (Instr.ops [.movImm .rax 60, .alu .xor .rdi .rdi] ++ [.op .syscall]) := hat
  obtain ⟨hops, hcall⟩ := Loaded.codeAt_append.mp hat
  let m₁ : Machine := m.set .rax 60
  let m₂ : Machine := m₁.setResult .rdi (arith .xor (m₁.regs .rdi) (m₁.regs .rdi))
  have hexec : execAll? P.sys [.movImm .rax 60, .alu .xor .rdi .rdi] m = some m₂ := rfl
  obtain ⟨n, hn⟩ := Loaded.reaches_ops hops hrip hexec
  have hrdi : m₂.regs .rdi = 0 := BitVec.xor_self
  have hstep := step_exit (Loaded.codeAt_cons.mp hcall).1 (m := m₂.goto (P.addr (k + 2))) rfl rfl
  refine ⟨n + 1, (run?_add hn 1).trans ?_⟩
  rw [run?, length_cons, length_singleton, hstep, regs_goto, hrdi]
  rfl

/-! ## The whole process -/

/-- The number of words that a process needs on the stack. -/
def stackWords (p : Program) (depth : Nat) : Nat :=
  (StaticArea.ofProgram p).fields.length + callWords p depth

/-- In the beginning all static fields are zero. -/
theorem staticWords_initial (L : Layout) (area : StaticArea) (table : ClassTable) :
    staticWords L area (.initial table) = List.replicate area.fields.length 0 := by
  rw [eq_replicate_iff]
  refine ⟨length_staticWords _ _ _, ?_⟩
  intro _ hw
  obtain ⟨⟨className, name⟩, -, rfl⟩ := mem_map.mp hw
  exact encode_initialFields L table className name

variable {S : Setting} {main : MethodKey}

/-- The entry code sets aside the static fields and the argument of the main method. -/
theorem moves_entry {v : View} (hfit : S.layout.Fits []) (hstack : v.stack = [])
    (hheap : v.heap = []) (houtput : v.output = []) (hroom : S.statics < S.layout.room)
    (hat : S.loaded.CodeAt 0 (Instr.ops
      (.movReg .r15 .rsp :: List.replicate (S.area.size + 1) (.pushImm 0)))) :
    ∃ v', S.loaded.Runs 0 v (S.area.size + 2) v' ∧
      S.Matches (v.regs .rbp) (.initial S.table) [0] v' := by
  have hsize : S.area.size = S.statics := by
    have hnodup := (isTableOf_of_identify S.identified).nodup_statics
    exact congrArg List.length (StaticArea.eraseDups_of_nodup hnodup)
  -- Static fields are addressed from the bottom of the stack, which `r15` keeps.
  let v₁ : View := v.set .r15 (BitVec.ofNat 64 (S.layout.top - 8 * v.stack.length))
  have hmove : Does S.loaded.sys S.loaded.layout (.movReg .r15 .rsp) v v₁ :=
    does_movReg_rsp (by decide)
  have hsizes : v₁.sizes = [] := by
    rw [View.sizes, show v₁.heap = [] from hheap, map_nil]
  have hpushes := doesAll_pushZeros (P := S.loaded) (v := v₁) (n := S.area.size + 1)
    (hsizes ▸ hfit) (by
      rw [show v₁.stack = [] from hstack, length_nil, Nat.zero_add, hsize]
      exact hroom)
  have hruns := Loaded.runs_ops (.cons hmove hpushes) hat
  rw [length_cons, length_replicate, Nat.zero_add] at hruns
  refine ⟨_, hruns, ?_, ?_, houtput, rfl, ?_, hfit⟩
  · show v.stack ++ _ = _
    rw [hstack, nil_append, staticWords_initial, hsize, replicate_succ']
    rfl
  · exact hheap
  · show BitVec.ofNat 64 (S.layout.top - 8 * v.stack.length) = _
    rw [hstack]
    rfl

/-- If the main method comes to its end, so does the process. -/
theorem exists_exit_of_run (hat : S.loaded.CodeAt 0 (Lowering.entryCode S.area main))
    {rounds depth : Nat} {st : State} (hrun : run S.program S.table main rounds depth = .ok st)
    (hroom : stackWords S.program depth ≤ S.layout.room) (hfit : S.layout.Fits (st.sizes S.table))
    {v : View} (hstack : v.stack = []) (hheap : v.heap = []) (houtput : v.output = [])
    (hm : Shows S.layout v m) (hrip : m.rip = S.loaded.addr 0) :
    ∃ n, run? S.loaded.sys S.loaded.image n m = some (.exited 0 (outputOf st.output)) := by
  obtain ⟨⟨_, _⟩, hinvoke, ⟨⟩⟩ := bind_eq_ok.mp hrun
  have hspare : 6 ≤ callWords S.program depth := Nat.le_add_right _ _
  have hstatics : S.statics + callWords S.program depth ≤ S.layout.room := hroom
  obtain ⟨hfront, hexit⟩ := Loaded.codeAt_append.mp hat
  obtain ⟨hentry, hcall⟩ := Loaded.codeAt_append.mp hfront
  obtain ⟨_, hruns₁, hv₁⟩ := moves_entry (hfit.of_prefix nil_prefix) hstack hheap houtput
    (by omega) hentry
  have hlength : (Instr.ops (.movReg .r15 .rsp :: List.replicate (S.area.size + 1) (.pushImm 0)) :
      LabelledCode).length = S.area.size + 2 := by simp [Instr.ops]
  rw [hlength, Nat.zero_add] at hcall
  rw [length_append, hlength, length_singleton, Nat.zero_add] at hexit
  -- The main method is called and comes back to the exit.
  obtain ⟨v₂, hruns₂, hv₂⟩ := hv₁.call (Loaded.codeAt_cons.mp hcall).1 (by
    rw [length_singleton]
    omega)
  have hback := simulates_invoke S rounds depth _ _ none [.null] _ _ _ hinvoke closed_initial
    (fun x hx =>
    by cases mem_singleton.mp hx; trivial) (fun _ h => by cases h) hfit [] (S.area.size + 3)
    _ v₂ hstatics hv₂
  obtain ⟨_, _, hruns₃, hv₃, -⟩ := hback
  obtain ⟨_, ⟨n, hn⟩, hm', hrip'⟩ := (hruns₁.trans hruns₂).trans hruns₃ m hm hrip
  obtain ⟨k, hk⟩ := exists_exit hexit hrip'
  refine ⟨n + k, (run?_add hn k).trans ?_⟩
  rw [hk, hm'.output, hv₃.output]

/-- A source that compiles to an image: if the main method of its program comes to its end, then so
does every process that executes the image, with status zero and the lines of the numbers that were
printed. -/
theorem exits_of_run {source : String} {image : List UInt8} (hcompile : compile source = .ok image)
    (hsize : image.length < 2 ^ 31) :
    ∃ p table main file, parse source = .ok p ∧ identify p = .ok table ∧ findMain p = .ok main ∧
      Image.load? image = some file ∧
      ∀ rounds depth st, p.nodes < 2 ^ 27 → run p table main rounds depth = .ok st →
        ∀ (sys : System) (top room : Nat) (m : Machine), IsStart file top room m →
          stackWords p depth ≤ room → Layout.Fits ⟨top, room, sys.place⟩ (st.sizes table) →
          ∃ n, run? sys file n m = some (.exited 0 (outputOf st.output)) := by
  obtain ⟨_, table, main, _, hparse, hidentify, -, hmain, hlower, rfl⟩ := compile_eq_ok hcompile
  obtain ⟨C, rfl, rfl, rfl, rfl⟩ := Compiled.exists_of_lower hidentify
    (membersOwned_of_parse hparse) (mem_methodsOf_of_findMain hmain) hlower
  rw [Image.length_ofCode, Code.length_encodeFrom] at hsize
  refine ⟨C.program, C.table, C.main, _, hparse, hidentify, hmain, Image.load?_ofCode (by
    rw [Code.length_encodeFrom]
    omega), ?_⟩
  intro _ _ _ hsmall hrun sys top room _ hstart hroom hfit
  have hcode : Code.byteSize C.linked < 2 ^ 31 := by omega
  refine exists_exit_of_run (S := C.setting hsmall hcode sys top room)
    (C.codeAt_parts hcode sys top room).1 hrun hroom hfit rfl rfl rfl
    (shows_of_isStart hstart sys.place) ?_
  exact hstart.rip

/-- A source whose main method counts in a field and prints a number. -/
def countingSource : String :=
  "class A\x7bint n;public static void main(String[] a)\x7bA o=new A();" ++
  "while(o.n<3)o.n=o.n+1;System.out.println(o.n*14);\x7d\x7d"

/-- The program of `countingSource`. -/
def countingProgram : Program where
  classes :=
    [⟨⟨0, 113⟩, ⟨"A", ⟨6, 7⟩⟩, [⟨⟨8, 14⟩, false, false, ⟨.int, ⟨8, 11⟩⟩, ⟨"n", ⟨12, 13⟩⟩, "A"⟩],
      [⟨⟨14, 112⟩, false, true, ⟨.void, ⟨28, 32⟩⟩, ⟨"main", ⟨33, 37⟩⟩, "A",
        [⟨⟨38, 48⟩, ⟨.array (.object "String"), ⟨38, 46⟩⟩, ⟨"a", ⟨47, 48⟩⟩⟩],
        [.declare ⟨50, 62⟩ ⟨.object "A", ⟨50, 51⟩⟩ ⟨"o", ⟨52, 53⟩⟩
          (.newObject ⟨54, 61⟩ ⟨"A", ⟨58, 59⟩⟩),
         .loop ⟨62, 84⟩
          (.binary ⟨68, 73⟩ .less
            (.ref (.member ⟨68, 71⟩ (.name ⟨68, 69⟩ "o") ⟨"n", ⟨70, 71⟩⟩))
            (.literal ⟨72, 73⟩ (.int 3)))
          (.assign ⟨74, 84⟩ (.member ⟨74, 77⟩ (.name ⟨74, 75⟩ "o") ⟨"n", ⟨76, 77⟩⟩)
            (.binary ⟨78, 83⟩ .add
              (.ref (.member ⟨78, 81⟩ (.name ⟨78, 79⟩ "o") ⟨"n", ⟨80, 81⟩⟩))
              (.literal ⟨82, 83⟩ (.int 1)))),
         .call ⟨84, 111⟩
          (.member ⟨84, 102⟩ (.member ⟨84, 94⟩ (.name ⟨84, 90⟩ "System") ⟨"out", ⟨91, 94⟩⟩)
            ⟨"println", ⟨95, 102⟩⟩)
          [.binary ⟨103, 109⟩ .mul
            (.ref (.member ⟨103, 106⟩ (.name ⟨103, 104⟩ "o") ⟨"n", ⟨105, 106⟩⟩))
            (.literal ⟨107, 109⟩ (.int 14))]]⟩]⟩]

set_option maxRecDepth 4000 in
theorem parse_countingSource : parse countingSource = .ok countingProgram := by
  rw [parse, TokenStream.ofSource, lex_eq_tokensWithin]
  rfl

set_option maxRecDepth 4000 in
theorem compile_countingSource :
    ∃ image, compile countingSource = .ok image ∧ image.length = 495 := by
  rw [compile, parse_countingSource]
  exact ⟨_, rfl, rfl⟩

/-- A system that maps memory page by page, far above the stack of `freshProcess`. -/
def pagingSystem : System := ⟨fun n => 2 ^ 30 + 4096 * n, fun _ => (0, 0)⟩

/-- A process that is about to execute a file, with room for a thousand words on its stack. -/
def freshProcess (file : LoadedImage) : Machine where
  regs r := if r = .rsp then BitVec.ofNat 64 (2 ^ 20) else 0
  flags := none
  rip := file.entry
  memory _ := 0
  ranges := [(2 ^ 20 - 8 * 1000, 2 ^ 20)]
  output := []
  mappings := 0
  calls := 0

theorem exits_countingSource :
    ∃ image file n, compile countingSource = .ok image ∧ Image.load? image = some file ∧
      run? pagingSystem file n (freshProcess file) =
        some (.exited 0 "42\n".toUTF8.data.toList) := by
  obtain ⟨image, himage, hlength⟩ := compile_countingSource
  obtain ⟨_, _, _, file, hparse, hidentify, hmain, hload, hruns⟩ :=
    exits_of_run himage (by rw [hlength]; decide)
  cases parse_countingSource.symm.trans hparse
  cases hidentify
  cases hmain
  have hstart : IsStart file (2 ^ 20) 1000 (freshProcess file) :=
    ⟨rfl, rfl, by decide, by decide, rfl, rfl, rfl⟩
  -- The one object has one word.
  have hfit : Layout.Fits ⟨2 ^ 20, 1000, pagingSystem.place⟩ [1] := by
    refine ⟨by decide, by decide, ?_, ?_, ?_⟩
    · rintro (_ | k) n ⟨⟩
      decide
    · rintro (_ | k) n ⟨⟩
      decide
    · rintro (_ | _) (_ | _) n _ ⟨⟩ ⟨⟩ hne
      exact absurd rfl hne
  obtain ⟨n, hn⟩ := hruns 4 2 _ (by decide) rfl pagingSystem _ _ _ hstart (by decide) hfit
  exact ⟨image, file, n, himage, hload, hn⟩

end Preservation

end MiniJava
