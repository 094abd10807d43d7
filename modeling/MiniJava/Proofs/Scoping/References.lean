import MiniJava.Identification.Body
import MiniJava.Proofs.Resolution.ScopeMap
import MiniJava.Proofs.Resolution.TableOf
import MiniJava.Proofs.Results
import MiniJava.Proofs.Scoping.Rules

/-!
# Identified references

Identification looks names up in a table of classes and a stack of scopes. What it finds there is
what the rules of scoping say that a reference means (`resolve_iff`, `checkExpr_iff`).

The table is read through `contains_iff` and `hasMember_iff`, and the stack through `Agrees`.
-/

namespace MiniJava

open Scoping List

/-! ## The table of classes -/

theorem firstRepeated?_of_nodup {seen : List String} {names : List Ident}
    (hnodup : (names.map (·.value)).Nodup) (hseen : ∀ name ∈ names, name.value ∉ seen) :
    firstRepeated? seen names = none := by
  induction names generalizing seen with
  | nil => rfl
  | cons name _ ih =>
    rw [map_cons, nodup_cons] at hnodup
    rw [firstRepeated?, if_neg (hseen name mem_cons_self)]
    refine ih hnodup.2 ?_
    intro other hother hmem
    rcases mem_cons.mp hmem with heq | hmem
    · exact hnodup.1 (heq ▸ mem_map_of_mem hother)
    · exact hseen other (mem_cons_of_mem _ hother) hmem

variable {className : String}

namespace ClassTable

variable {name : String}

theorem contains_eq_false {t : ClassTable} (h : name ∉ t.classes.map (·.1)) :
    t.contains name = false := by
  rw [contains, class?, Option.isSome_eq_false_iff, Option.isNone_iff_eq_none, lookup_eq_none_iff]
  intro _ hbinding
  rw [bne_iff_ne]
  rintro rfl
  exact h (mem_map_of_mem hbinding)

/-- Classes with new names, each of which has no name for two members, can be added to a table. -/
theorem exists_foldlM_declare {cs : List ClassDecl} {t : ClassTable}
    (hnodup : (t.classes.map (·.1) ++ cs.map (·.name.value)).Nodup)
    (hmembers : ∀ c ∈ cs, c.memberNames.Nodup) : ∃ t', cs.foldlM declare t = .ok t' := by
  induction cs generalizing t with
  | nil => exact ⟨t, rfl⟩
  | cons c _ ih =>
    have hnew : c.name.value ∉ t.classes.map (·.1) := by
      intro hmem
      exact (nodup_append.mp hnodup).2.2 _ hmem _ mem_cons_self rfl
    -- No member has the name of another, so the entry can be made.
    have hentry : ClassEntry.ofDecl c = .ok (ClassEntry.members c) := by
      have hnone : firstRepeated? [] (c.fields.map (·.name) ++ c.methods.map (·.name)) = none := by
        refine firstRepeated?_of_nodup ?_ fun _ _ => not_mem_nil
        rw [map_append, map_map, map_map]
        exact hmembers c mem_cons_self
      rw [ClassEntry.ofDecl, hnone]
      rfl
    have hdeclare : t.declare c = .ok ⟨t.classes ++ [(c.name.value, ClassEntry.members c)]⟩ := by
      rw [declare, contains_eq_false hnew, if_neg Bool.false_ne_true, hentry]
      rfl
    rw [foldlM_cons, hdeclare]
    refine ih ?_ fun d hd => hmembers d (mem_cons_of_mem _ hd)
    rw [map_append, append_assoc]
    exact hnodup

/-- The table of a program can be built if no class and no member is declared twice. -/
theorem exists_ofProgram_iff {p : Program} :
    (∃ t, ofProgram p = .ok t) ↔ p.classNames.Nodup ∧ ∀ c ∈ p.classes, c.memberNames.Nodup := by
  constructor
  · rintro ⟨_, h⟩
    have htable := isTableOf_of_ofProgram h
    refine ⟨?_, htable.members_nodup⟩
    have hnodup := htable.names_nodup
    rw [htable.classes, map_append, map_map] at hnodup
    exact hnodup
  · rintro ⟨hclasses, hmembers⟩
    exact exists_foldlM_declare hclasses hmembers

namespace IsTableOf

variable {table : ClassTable} {p : Program} (h : table.IsTableOf p)
include h

theorem contains_iff : table.contains name = true ↔ name ∈ p.classNames := by
  have hnames : table.classes.map (·.1) = p.classNames := by
    rw [h.classes, map_append, map_map]
    rfl
  rw [← hnames]
  constructor
  · intro hcontains
    by_contra hmem
    rw [contains_eq_false hmem] at hcontains
    cases hcontains
  · intro hmem
    obtain ⟨⟨_, _⟩, hbinding, rfl⟩ := mem_map.mp hmem
    rw [contains, class?, lookup_of_mem h.names_nodup hbinding]
    rfl

/-- The members that the program gives to a class are those that are found in the table. -/
theorem hasMember_iff {m : Member} :
    HasMember p className name m ↔
      (∃ f, table.field? className name = some f ∧ m = ⟨.field f.type, f.isStatic, f.isPrivate⟩) ∨
        (table.field? className name = none ∧
          ∃ e, table.method? className name = some e ∧ m = ⟨.method, e.isStatic, e.isPrivate⟩) := by
  constructor
  · intro hm
    cases hm with
    | out => exact .inl ⟨_, h.field?_out, rfl⟩
    | print => exact .inr ⟨h.field?_of_method? h.method?_print, _, h.method?_print, rfl⟩
    | field hc hf => exact .inl ⟨_, h.field?_of_mem hc hf, rfl⟩
    | method hc hm =>
      have hmethod := h.method?_of_mem hc hm
      exact .inr ⟨h.field?_of_method? hmethod, _, hmethod, rfl⟩
  · rintro (⟨_, hf, rfl⟩ | ⟨-, _, he, rfl⟩)
    · rcases h.field?_cases hf with ⟨rfl, rfl, rfl⟩ | ⟨_, hc, rfl, _, hd, rfl, rfl⟩
      · exact .out
      · exact .field hc hd
    · rcases h.method?_cases he with ⟨rfl, rfl, rfl⟩ | ⟨_, hc, rfl, _, hd, rfl, rfl⟩
      · exact .print
      · exact .method hc hd

end IsTableOf

end ClassTable

namespace Scoping

/-- The surroundings of a body, as identification sees them. -/
def Home.site (home : Home) (table : ClassTable) : Identification.Site :=
  ⟨table, home.className, home.isStatic⟩

/-- Identification binds the variables in scope. The names in `barred` belong to variables that are
being initialized. -/
def Agrees (locals : ScopeStack LocalVar) (barred : List String) (vars : Vars) : Prop :=
  ∀ name, if name ∈ barred then ∃ type, locals.lookup name = some ⟨type, false⟩
    else locals.lookup name = (vars.lookup name).map (⟨·, true⟩)

/-! ## References -/

/-- A type passes if its class is there. -/
theorem checkType_iff {table : ClassTable} {p : Program} (ht : table.IsTableOf p)
    {type : Located Ty} :
    Identification.checkType table type = .ok () ↔ TypeNamed p type.value := by
  unfold Identification.checkType TypeNamed
  split
  next hname =>
    simp only [hname, Option.some.injEq, forall_eq']
    rw [← ht.contains_iff]
    split
    next hcontains => simp only [hcontains]
    next hcontains => simp only [hcontains, reduceCtorEq, Bool.false_eq_true]
  next hnone => simp only [hnone, reduceCtorEq, false_implies, implies_true]

section

variable {home : Home} {table : ClassTable} (ht : table.IsTableOf home.program)
  (howned : home.program.MembersOwned)

theorem checkAccess_iff {throughClass : Bool} {name : Ident} {owner : String}
    {isPrivate isStatic : Bool} :
    (home.site table).checkAccess className throughClass name owner isPrivate isStatic = .ok () ↔
      (isPrivate = true → owner = home.className) ∧ (throughClass = true → isStatic = true) := by
  unfold Identification.Site.checkAccess
  by_cases howner : owner = home.className
  · cases throughClass <;> cases isStatic <;> simp [Home.site, howner]
  · cases isPrivate <;> cases throughClass <;> cases isStatic <;> simp [Home.site, howner]

include ht howned

variable {locals : ScopeStack LocalVar} {barred : List String} {vars : Vars} {referent : Referent}

/-- A member of a class is identified if the class has it and it may be reached. -/
theorem resolveMember_iff {throughClass : Bool} {name : Ident} :
    (home.site table).resolveMember className throughClass name = .ok referent ↔
      ∃ m, HasMember home.program className name.value m ∧ m.referent = referent ∧
        (m.isPrivate = true → className = home.className) ∧
        (throughClass = true → m.isStatic = true) := by
  unfold Identification.Site.resolveMember
  split
  next f hf =>
    have howner : f.owner = className := ht.owner_of_field? howned hf
    constructor
    · intro h
      obtain ⟨⟨⟩, haccess, ⟨⟩⟩ := bind_eq_ok.mp h
      obtain ⟨hprivate, hstatic⟩ := checkAccess_iff.mp haccess
      exact ⟨_, ht.hasMember_iff.mpr (.inl ⟨f, hf, rfl⟩), rfl, howner ▸ hprivate, hstatic⟩
    · rintro ⟨m, hm, rfl, hprivate, hstatic⟩
      rcases ht.hasMember_iff.mp hm with ⟨f', hf', rfl⟩ | ⟨hnone, -⟩
      · cases hf.symm.trans hf'
        exact bind_eq_ok.mpr ⟨(), checkAccess_iff.mpr ⟨howner ▸ hprivate, hstatic⟩, rfl⟩
      · cases hf.symm.trans hnone
  next hnone =>
    split
    next e he =>
      have howner : e.owner = className := ht.owner_of_method? howned he
      constructor
      · intro h
        obtain ⟨⟨⟩, haccess, ⟨⟩⟩ := bind_eq_ok.mp h
        obtain ⟨hprivate, hstatic⟩ := checkAccess_iff.mp haccess
        exact ⟨_, ht.hasMember_iff.mpr (.inr ⟨hnone, e, he, rfl⟩), rfl, howner ▸ hprivate, hstatic⟩
      · rintro ⟨_, hm, rfl, hprivate, hstatic⟩
        rcases ht.hasMember_iff.mp hm with ⟨_, hf', -⟩ | ⟨-, _, he', rfl⟩
        · cases hnone.symm.trans hf'
        · cases he.symm.trans he'
          exact bind_eq_ok.mpr ⟨(), checkAccess_iff.mpr ⟨howner ▸ hprivate, hstatic⟩, rfl⟩
    next hmethod =>
      constructor
      · intro h
        cases h
      · rintro ⟨_, hm, -⟩
        rcases ht.hasMember_iff.mp hm with ⟨_, hf', -⟩ | ⟨-, _, he', -⟩
        · cases hnone.symm.trans hf'
        · cases hmethod.symm.trans he'

section

variable (hagree : Agrees locals barred vars)
include hagree

omit howned in
/-- A plain name is identified if it means something and is not barred. -/
theorem resolveName_iff {span : Span} {text : String} :
    (home.site table).resolveName locals span text = .ok referent ↔
      home.Means vars (.name span text) referent ∧ text ∉ barred := by
  have hlookup := hagree text
  unfold Identification.Site.resolveName
  by_cases hbarred : text ∈ barred
  · rw [if_pos hbarred] at hlookup
    obtain ⟨_, hlookup⟩ := hlookup
    simp [hlookup, hbarred]
  · rw [if_neg hbarred] at hlookup
    simp only [hbarred, not_false_eq_true, and_true]
    cases hvar : vars.lookup text with
    | some _ =>
      rw [hlookup, hvar]
      constructor
      · intro h
        cases h
        exact .bound hvar
      · intro h
        cases h with
        | bound hvar' => cases hvar.symm.trans hvar'; rfl
        | own hnone | classNamed hnone => cases hvar.symm.trans hnone
    | none =>
      rw [hlookup, hvar]
      -- What a name means that is no variable depends on what the table holds.
      have htable : (home.site table).table.IsTableOf home.program := ht
      have hmeans : home.Means vars (.name span text) referent ↔
          (∃ m, HasMember home.program (home.site table).className text m ∧
            ((home.site table).isStatic = true → m.isStatic = true) ∧ m.referent = referent) ∨
          ((∀ m, ¬ HasMember home.program (home.site table).className text m) ∧
            text ∈ home.program.classNames ∧ referent = .classNamed text) := by
        constructor
        · intro h
          cases h with
          | bound hvar' => cases hvar.symm.trans hvar'
          | own _ hm hstatic => exact .inl ⟨_, hm, hstatic, rfl⟩
          | classNamed _ hnone hclass => exact .inr ⟨hnone, hclass, rfl⟩
        · rintro (⟨_, hm, hstatic, rfl⟩ | ⟨hnone, hclass, rfl⟩)
          · exact .own hvar hm hstatic
          · exact .classNamed hvar hnone hclass
      rw [hmeans]
      simp only [htable.hasMember_iff, ← htable.contains_iff, Option.map_none]
      cases (home.site table).table.field? (home.site table).className text with
      | some f =>
        cases (home.site table).isStatic <;> cases hs : f.isStatic <;> simp [hs]
      | none =>
        cases (home.site table).table.method? (home.site table).className text with
        | some e =>
          cases (home.site table).isStatic <;> cases hs : e.isStatic <;> simp [hs]
        | none =>
          cases (home.site table).table.contains text with
          | true => simpa using eq_comm
          | false => simp

/-- A reference is identified if it means something and does not begin with a barred name. -/
theorem resolve_iff (r : Ref) :
    (home.site table).resolve locals r = .ok referent ↔
      home.Means vars r referent ∧ r.root?.toList.Disjoint barred := by
  induction r generalizing referent with
  | this span =>
    have hroot : (Ref.this span).root?.toList.Disjoint barred := disjoint_nil_left barred
    unfold Identification.Site.resolve
    show (if home.isStatic = true then _ else _) = _ ↔ _
    constructor
    · intro h
      split at h
      next => cases h
      next hstatic =>
        cases h
        exact ⟨.this (Bool.eq_false_iff.mpr hstatic), hroot⟩
    · rintro ⟨h, -⟩
      cases h with
      | this hthis => rw [if_neg (by rw [hthis]; exact Bool.false_ne_true)]
  | name =>
    rw [Identification.Site.resolve, resolveName_iff ht hagree]
    simp [Ref.root?]
  | member _ _ _ ih =>
    rw [Identification.Site.resolve, bind_eq_ok]
    constructor
    · rintro ⟨_, hinner, h⟩
      obtain ⟨⟨_, _⟩, hcontext, h⟩ := bind_eq_ok.mp h
      obtain ⟨hbase, hroot⟩ := ih.mp hinner
      obtain ⟨_, hm, rfl, hprivate, hstatic⟩ := (resolveMember_iff ht howned).mp h
      refine ⟨?_, hroot⟩
      -- Members are looked for in the class of an object, or in the class that is named.
      unfold Identification.Site.memberContext at hcontext
      split at hcontext
      next => cases hcontext; exact .ofObject hbase rfl hm hprivate
      next => cases hcontext; exact .ofObject hbase rfl hm hprivate
      next => cases hcontext; exact .ofObject hbase rfl hm hprivate
      next => cases hcontext
      next => cases hcontext
      next => cases hcontext; exact .ofClass hbase hm hprivate (hstatic rfl)
      next => cases hcontext
    · rintro ⟨h, hroot⟩
      cases h with
      | ofObject hbase hobject hm hprivate =>
        refine ⟨_, ih.mpr ⟨hbase, hroot⟩, bind_eq_ok.mpr ⟨(_, false), ?_,
          (resolveMember_iff ht howned).mpr ⟨_, hm, rfl, hprivate, fun h => by cases h⟩⟩⟩
        unfold Home.objectClass? at hobject
        split at hobject
        next => cases hobject; rfl
        next => cases hobject; rfl
        next => cases hobject; rfl
        next => cases hobject
      | ofClass hbase hm hprivate hstatic =>
        exact ⟨_, ih.mpr ⟨hbase, hroot⟩, bind_eq_ok.mpr ⟨(_, true), rfl,
          (resolveMember_iff ht howned).mpr ⟨_, hm, rfl, hprivate, fun _ => hstatic⟩⟩⟩

theorem checkValue_iff {r : Ref} :
    (home.site table).checkValue locals r = .ok () ↔
      home.CanRead vars r ∧ r.root?.toList.Disjoint barred := by
  rw [Identification.Site.checkValue, bind_eq_ok]
  constructor
  · rintro ⟨referent, hresolve, h⟩
    obtain ⟨hmeans, hroot⟩ := (resolve_iff ht howned hagree r).mp hresolve
    cases referent with
    | this => exact ⟨.inl hmeans, hroot⟩
    | «variable» type => exact ⟨.inr (.inl ⟨type, hmeans⟩), hroot⟩
    | field type => exact ⟨.inr (.inr ⟨type, hmeans⟩), hroot⟩
    | method | classNamed => cases h
  · rintro ⟨hmeans | ⟨_, hmeans⟩ | ⟨_, hmeans⟩, hroot⟩
    · exact ⟨_, (resolve_iff ht howned hagree r).mpr ⟨hmeans, hroot⟩, rfl⟩
    · exact ⟨_, (resolve_iff ht howned hagree r).mpr ⟨hmeans, hroot⟩, rfl⟩
    · exact ⟨_, (resolve_iff ht howned hagree r).mpr ⟨hmeans, hroot⟩, rfl⟩

theorem checkTarget_iff {r : Ref} :
    (home.site table).checkTarget locals r = .ok () ↔
      home.CanAssign vars r ∧ r.root?.toList.Disjoint barred := by
  rw [Identification.Site.checkTarget, bind_eq_ok]
  constructor
  · rintro ⟨referent, hresolve, h⟩
    obtain ⟨hmeans, hroot⟩ := (resolve_iff ht howned hagree r).mp hresolve
    cases referent with
    | «variable» type => exact ⟨.inl ⟨type, hmeans⟩, hroot⟩
    | field type => exact ⟨.inr ⟨type, hmeans⟩, hroot⟩
    | this | method | classNamed => cases h
  · rintro ⟨⟨_, hmeans⟩ | ⟨_, hmeans⟩, hroot⟩
    · exact ⟨_, (resolve_iff ht howned hagree r).mpr ⟨hmeans, hroot⟩, rfl⟩
    · exact ⟨_, (resolve_iff ht howned hagree r).mpr ⟨hmeans, hroot⟩, rfl⟩

theorem checkCallee_iff {r : Ref} :
    (home.site table).checkCallee locals r = .ok () ↔
      home.CanCall vars r ∧ r.root?.toList.Disjoint barred := by
  rw [Identification.Site.checkCallee, bind_eq_ok]
  constructor
  · rintro ⟨referent, hresolve, h⟩
    cases referent with
    | method => exact (resolve_iff ht howned hagree r).mp hresolve
    | this | «variable» | field | classNamed => cases h
  · intro h
    exact ⟨_, (resolve_iff ht howned hagree r).mpr h, rfl⟩

end

/-! ## Expressions -/

end

mutual

/-- The names of an expression are identified if they are used as they may be and none is barred. -/
theorem checkExpr_iff {home : Home} {table : ClassTable} (ht : table.IsTableOf home.program)
    (howned : home.program.MembersOwned) {locals : ScopeStack LocalVar} {barred : List String}
    {vars : Vars} (hagree : Agrees locals barred vars) (e : Expr) :
    (home.site table).checkExpr locals e = .ok () ↔
      home.ExprScoped vars e ∧ e.roots.Disjoint barred := by
  cases e with
  | literal =>
    simp [Identification.Site.checkExpr, Home.ExprScoped, Expr.roots]
  | unary _ _ operand =>
    rw [Identification.Site.checkExpr, checkExpr_iff ht howned hagree operand, Home.ExprScoped,
      Expr.roots]
  | binary _ _ left right =>
    rw [Identification.Site.checkExpr, check_bind_eq_ok, Home.ExprScoped, Expr.roots,
      disjoint_append_left]
    simp only [checkExpr_iff ht howned hagree left, checkExpr_iff ht howned hagree right]
    tauto
  | ref =>
    rw [Identification.Site.checkExpr, checkValue_iff ht howned hagree, Home.ExprScoped, Expr.roots]
  | index _ _ position =>
    rw [Identification.Site.checkExpr, check_bind_eq_ok, Home.ExprScoped, Expr.roots,
      disjoint_append_left]
    simp only [checkValue_iff ht howned hagree, checkExpr_iff ht howned hagree position]
    tauto
  | call _ _ args =>
    rw [Identification.Site.checkExpr, check_bind_eq_ok, Home.ExprScoped, Expr.roots,
      disjoint_append_left]
    simp only [checkCallee_iff ht howned hagree, checkExprs_iff ht howned hagree args]
    tauto
  | newObject _ className =>
    rw [Identification.Site.checkExpr, Home.ExprScoped, Expr.roots]
    show Identification.checkType table _ = _ ↔ _
    rw [checkType_iff ht]
    simp [TypeNamed, Ty.className?]
  | newArray _ _ size =>
    rw [Identification.Site.checkExpr, check_bind_eq_ok, Home.ExprScoped, Expr.roots]
    show Identification.checkType table _ = _ ∧ _ ↔ _
    simp only [checkType_iff ht, checkExpr_iff ht howned hagree size]
    tauto

/-- The names of several expressions are identified if all of them are. -/
theorem checkExprs_iff {home : Home} {table : ClassTable} (ht : table.IsTableOf home.program)
    (howned : home.program.MembersOwned) {locals : ScopeStack LocalVar} {barred : List String}
    {vars : Vars} (hagree : Agrees locals barred vars) (es : List Expr) :
    (home.site table).checkExprs locals es = .ok () ↔
      home.ExprsScoped vars es ∧ (Expr.rootsOf es).Disjoint barred := by
  cases es with
  | nil => simp [Identification.Site.checkExprs, Home.ExprsScoped, Expr.rootsOf]
  | cons e es =>
    rw [Identification.Site.checkExprs, check_bind_eq_ok, Home.ExprsScoped, Expr.rootsOf,
      disjoint_append_left]
    simp only [checkExpr_iff ht howned hagree e, checkExprs_iff ht howned hagree es]
    tauto

end

end Scoping

end MiniJava
