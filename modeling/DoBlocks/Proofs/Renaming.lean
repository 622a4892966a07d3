import DoBlocks.Proofs.Naming

/-!
# Renaming generated names

Lowered code keeps generated names apart from what the user wrote, so it can be renamed without a look at
its text. Renaming goes through everything that puts lowered statements together, and code without
generated names stays as it is.
-/

namespace DoBlocks

/-- Data in which generated names can be renamed. -/
class Renamable (α : Type) where
  rename : (HiddenName → HiddenName) → α → α

export Renamable (rename)

variable (ρ : HiddenName → HiddenName)

instance : Renamable HiddenName := ⟨fun ρ n => ρ n⟩

instance {α : Type} [Renamable α] : Renamable (Option α) := ⟨fun ρ => Option.map (rename ρ)⟩

instance {α : Type} [Renamable α] : Renamable (List α) := ⟨fun ρ => List.map (rename ρ)⟩

instance {ε α : Type} [Renamable α] : Renamable (Except ε α) := ⟨fun ρ => Except.map (rename ρ)⟩

/-! ### Expressions and names -/

/-- The expression with its generated names renamed. -/
def Expr.renamed (ρ : HiddenName → HiddenName) : Expr → Expr
  | plain text buried => plain text buried
  | hidden name => hidden (ρ name)
  | escape text mark operand => escape text mark (operand.renamed ρ)
  | logical c opening left before after right closing =>
    logical c opening (left.renamed ρ) before after (right.renamed ρ) closing
  | conditional opening body ifText test elseText orelse closing =>
    conditional opening (body.renamed ρ) ifText (test.renamed ρ) elseText (orelse.renamed ρ) closing

instance : Renamable Expr := ⟨Expr.renamed⟩

instance : Renamable Value where
  rename ρ
    | .expr e => .expr (rename ρ e)
    | .constant c => .constant c

instance : Renamable Test where
  rename ρ
    | .expr e => .expr (rename ρ e)
    | .not name => .not (ρ name)

instance : Renamable Name where
  rename ρ
    | .written s => .written s
    | .hidden name => .hidden (ρ name)

instance : Renamable Target where
  rename ρ
    | .written text => .written text
    | .hidden name => .hidden (ρ name)

instance : Renamable Destination where
  rename ρ
    | .assign targets => .assign (rename ρ targets)
    | .return => .return
    | .discard => .discard

instance : Renamable Sink := ⟨fun ρ s => ⟨rename ρ s.destination, rename ρ s.exitFlag⟩⟩

instance : Renamable Simple := ⟨fun ρ s => { s with value := rename ρ s.value }⟩

instance : Renamable CatchAll := ⟨fun ρ c => ⟨ρ c.callee, ρ c.subject⟩⟩

instance : Renamable WrapperNames := ⟨fun ρ w => ⟨ρ w.result, ρ w.exit⟩⟩

instance : Renamable Obligation := ⟨fun ρ o => { o with subject := ρ o.subject }⟩

/-! ### Statements -/

namespace Lowered

mutual

/-- The statement with its generated names renamed. -/
def renamed (ρ : HiddenName → HiddenName) : Lowered → Lowered
  | simple s => simple (rename ρ s)
  | assign targets value => assign (rename ρ targets) (rename ρ value)
  | set name value => set (rename ρ name) (rename ρ value)
  | .return value => .return (rename ρ value)
  | evaluate e => evaluate (rename ρ e)
  | .break => .break
  | pass => pass
  | branch arms none => branch (armsRenamed ρ arms) none
  | branch arms (some body) => branch (armsRenamed ρ arms) (some (allRenamed ρ body))
  | whileLoop test body => whileLoop (rename ρ test) (allRenamed ρ body)
  | forLoop target iterable body => forLoop target (rename ρ iterable) (allRenamed ρ body)
  | matchOn subject cases catchAll =>
    matchOn (rename ρ subject) (casesRenamed ρ cases) (rename ρ catchAll)

def allRenamed (ρ : HiddenName → HiddenName) : List Lowered → List Lowered
  | [] => []
  | s :: rest => s.renamed ρ :: allRenamed ρ rest

def armsRenamed (ρ : HiddenName → HiddenName) : List LoweredArm → List LoweredArm
  | [] => []
  | .mk test body :: rest => .mk (rename ρ test) (allRenamed ρ body) :: armsRenamed ρ rest

def casesRenamed (ρ : HiddenName → HiddenName) : List LoweredCase → List LoweredCase
  | [] => []
  | .mk pattern guard body :: rest =>
    .mk pattern (rename ρ guard) (allRenamed ρ body) :: casesRenamed ρ rest

end

end Lowered

instance : Renamable Lowered := ⟨Lowered.renamed⟩

instance : Renamable LoweredArm where
  rename ρ
    | .mk test body => .mk (rename ρ test) (rename ρ body)

instance : Renamable LoweredCase where
  rename ρ
    | .mk pattern guard body => .mk pattern (rename ρ guard) (rename ρ body)

instance : Renamable Lowering.Result := ⟨fun ρ r => ⟨rename ρ r.body, rename ρ r.sink, rename ρ r.wrapper⟩⟩

section Equations

variable {α : Type} [Renamable α]

@[simp] theorem rename_name (n : HiddenName) : rename ρ n = ρ n := rfl

@[simp] theorem rename_none : rename ρ (none : Option α) = none := rfl

@[simp] theorem rename_some (a : α) : rename ρ (some a) = some (rename ρ a) := rfl

@[simp] theorem rename_nil : rename ρ ([] : List α) = [] := rfl

@[simp] theorem rename_cons (a : α) (as : List α) : rename ρ (a :: as) = rename ρ a :: rename ρ as := rfl

@[simp] theorem rename_append (as bs : List α) : rename ρ (as ++ bs) = rename ρ as ++ rename ρ bs :=
  List.map_append

@[simp] theorem rename_hiddenName (n : HiddenName) : rename ρ (Name.hidden n) = .hidden (ρ n) := rfl

@[simp] theorem rename_exprValue (e : Expr) : rename ρ (Value.expr e) = .expr (rename ρ e) := rfl

@[simp] theorem rename_constant (c : Constant) : rename ρ (Value.constant c) = .constant c := rfl

@[simp] theorem rename_exprTest (e : Expr) : rename ρ (Test.expr e) = .expr (rename ρ e) := rfl

@[simp] theorem rename_not (n : HiddenName) : rename ρ (Test.not n) = .not (ρ n) := rfl

@[simp] theorem isSome_rename (a : Option α) : (rename ρ a).isSome = a.isSome := Option.isSome_map

@[simp] theorem isNone_rename (a : Option α) : (rename ρ a).isNone = a.isNone := Option.isNone_map

@[simp] theorem isEmpty_rename (as : List α) : (rename ρ as).isEmpty = as.isEmpty := List.isEmpty_map

end Equations

namespace Expr

@[simp] theorem rename_hidden (n : HiddenName) : rename ρ (hidden n) = hidden (ρ n) := rfl

@[simp] theorem rename_logical (c : Connective) (opening : Host.Surface) (left : Expr)
    (before after : Host.Surface) (right : Expr) (closing : Host.Surface) :
    rename ρ (logical c opening left before after right closing) =
      logical c opening (rename ρ left) before after (rename ρ right) closing := rfl

/-- An expression of the user stays as it is. -/
theorem rename_of_written {e : Expr} (h : e.written = true) : rename ρ e = e := by
  change e.renamed ρ = e
  induction e with
  | plain text buried => rfl
  | hidden name => cases h
  | escape text mark operand ih => rw [renamed, ih h]
  | logical c opening left before after right closing ihl ihr =>
    simp only [written, Bool.and_eq_true] at h
    rw [renamed, ihl h.1, ihr h.2]
  | conditional opening body ifText test elseText orelse closing ihb iht iho =>
    simp only [written, Bool.and_eq_true] at h
    rw [renamed, ihb h.1.1, iht h.1.2, iho h.2]

@[simp] theorem isHidden_rename (e : Expr) : (rename ρ e).isHidden = e.isHidden := by cases e <;> rfl

@[simp] theorem fitsAfterWord_rename (e : Expr) : (rename ρ e).fitsAfterWord = e.fitsAfterWord := by
  induction e with
  | logical c opening left before after right closing ihl ihr =>
    rw [rename_logical, fitsAfterWord, fitsAfterWord, ihl]
  | _ => rfl

theorem names_rename (e : Expr) : (rename ρ e).names = e.names.map ρ := by
  change (e.renamed ρ).names = _
  induction e with
  | plain text buried => rfl
  | hidden name => rfl
  | escape text mark operand ih => rfl
  | logical c opening left before after right closing ihl ihr => simp [renamed, names, ihl, ihr]
  | conditional opening body ifText test elseText orelse closing ihb iht iho =>
    simp [renamed, names, ihb, iht, iho]

theorem namesOf?_rename (e : Option Expr) : namesOf? (rename ρ e) = (namesOf? e).map ρ := by
  cases e with
  | none => rfl
  | some e => exact e.names_rename ρ

end Expr

/-- A sink of the user stays as it is. -/
theorem Sink.rename_of_names_eq_nil {s : Sink} (h : s.names = []) : rename ρ s = s := by
  obtain ⟨destination, exitFlag⟩ := s
  obtain ⟨hd, hf⟩ := List.append_eq_nil_iff.1 h
  have hdestination : rename ρ destination = destination := by
    cases destination with
    | assign targets =>
      have hsame : ∀ t ∈ targets, rename ρ t = t := by
        intro t ht
        have := List.flatMap_eq_nil_iff.1 hd t ht
        cases t with
        | written text => rfl
        | hidden name => cases this
      exact congrArg Destination.assign ((List.map_congr_left hsame).trans (List.map_id _))
    | «return» => rfl
    | discard => rfl
  have hflag : rename ρ exitFlag = exitFlag := by
    cases exitFlag with
    | none => rfl
    | some name =>
      cases name with
      | written s => rfl
      | hidden name => cases hf
  exact congrArg₂ Sink.mk hdestination hflag

namespace Lowered

theorem allRenamed_eq (stmts : List Lowered) : allRenamed ρ stmts = rename ρ stmts := by
  induction stmts with
  | nil => rfl
  | cons s rest ih => rw [allRenamed, ih]; rfl

theorem armsRenamed_eq (arms : List LoweredArm) : armsRenamed ρ arms = rename ρ arms := by
  induction arms with
  | nil => rfl
  | cons arm rest ih =>
    obtain ⟨test, body⟩ := arm
    rw [armsRenamed, ih, allRenamed_eq]
    rfl

theorem casesRenamed_eq (cases : List LoweredCase) : casesRenamed ρ cases = rename ρ cases := by
  induction cases with
  | nil => rfl
  | cons case rest ih =>
    obtain ⟨pattern, guard, body⟩ := case
    rw [casesRenamed, ih, allRenamed_eq]
    rfl

@[simp] theorem rename_simple (s : Simple) : rename ρ (simple s) = simple (rename ρ s) := rfl

@[simp] theorem rename_assign (targets : List Target) (value : Value) :
    rename ρ (assign targets value) = assign (rename ρ targets) (rename ρ value) := rfl

@[simp] theorem rename_set (name : Name) (value : Value) :
    rename ρ (set name value) = set (rename ρ name) (rename ρ value) := rfl

@[simp] theorem rename_return (value : Option Expr) :
    rename ρ (Lowered.return value) = .return (rename ρ value) := rfl

@[simp] theorem rename_evaluate (e : Expr) : rename ρ (evaluate e) = evaluate (rename ρ e) := rfl

@[simp] theorem rename_break : rename ρ Lowered.break = .break := rfl

@[simp] theorem rename_branch (arms : List LoweredArm) (orelse : Option (List Lowered)) :
    rename ρ (branch arms orelse) = branch (rename ρ arms) (rename ρ orelse) := by
  change renamed ρ (branch arms orelse) = _
  cases orelse with
  | none => rw [renamed, armsRenamed_eq]; rfl
  | some body => rw [renamed, armsRenamed_eq, allRenamed_eq]; rfl

@[simp] theorem rename_whileLoop (test : Test) (body : List Lowered) :
    rename ρ (whileLoop test body) = whileLoop (rename ρ test) (rename ρ body) := by
  change renamed ρ (whileLoop test body) = _
  rw [renamed, allRenamed_eq]

@[simp] theorem rename_forLoop (target : Host.Surface) (iterable : Expr) (body : List Lowered) :
    rename ρ (forLoop target iterable body) = forLoop target (rename ρ iterable) (rename ρ body) := by
  change renamed ρ (forLoop target iterable body) = _
  rw [renamed, allRenamed_eq]

@[simp] theorem rename_matchOn (subject : Expr) (cases : List LoweredCase) (catchAll : Option CatchAll) :
    rename ρ (matchOn subject cases catchAll) =
      matchOn (rename ρ subject) (rename ρ cases) (rename ρ catchAll) := by
  change renamed ρ (matchOn subject cases catchAll) = _
  rw [renamed, casesRenamed_eq]

@[simp] theorem rename_arm (test : Test) (body : List Lowered) :
    rename ρ (LoweredArm.mk test body) = .mk (rename ρ test) (rename ρ body) := rfl

@[simp] theorem rename_case (pattern : Pattern) (guard : Option Expr) (body : List Lowered) :
    rename ρ (LoweredCase.mk pattern guard body) = .mk pattern (rename ρ guard) (rename ρ body) := rfl

@[simp] theorem rename_suite (stmts : List Lowered) : rename ρ (suite stmts) = suite (rename ρ stmts) := by
  cases stmts <;> rfl

/-! ### Names of renamed statements -/

theorem names_renameTarget (t : Target) : (rename ρ t).names = t.names.map ρ := by cases t <;> rfl

theorem namesOf_renameTargets (targets : List Target) :
    (rename ρ targets).flatMap Target.names = (targets.flatMap Target.names).map ρ := by
  induction targets with
  | nil => rfl
  | cons t rest ih => simp [names_renameTarget, ih]

theorem names_renameValue (v : Value) : (rename ρ v).names = v.names.map ρ := by
  cases v with
  | expr e => exact e.names_rename ρ
  | constant c => rfl

theorem names_renameTest (t : Test) : (rename ρ t).names = t.names.map ρ := by
  cases t with
  | expr e => exact e.names_rename ρ
  | not name => rfl

theorem names_renameName (n : Name) : (rename ρ n).names = n.names.map ρ := by cases n <;> rfl

mutual

theorem names_renamed : ∀ s : Lowered, (s.renamed ρ).names = s.names.map ρ
  | simple s => Expr.namesOf?_rename ρ s.value
  | assign targets value => by simp [renamed, names, namesOf_renameTargets, names_renameValue]
  | set name value => by simp [renamed, names, names_renameName, names_renameValue]
  | .return value => Expr.namesOf?_rename ρ value
  | evaluate e => e.names_rename ρ
  | .break => rfl
  | pass => rfl
  | branch arms none => namesOfArms_renamed arms
  | branch arms (some body) => by simp [renamed, names, namesOfArms_renamed arms, namesOf_renamed body]
  | whileLoop test body => by simp [renamed, names, names_renameTest, namesOf_renamed body]
  | forLoop _ iterable body => by simp [renamed, names, Expr.names_rename, namesOf_renamed body]
  | matchOn subject cases none => by
    simp [renamed, names, Expr.names_rename, namesOfCases_renamed cases]
  | matchOn subject cases (some c) => by
    simp [renamed, names, Expr.names_rename, namesOfCases_renamed cases]
    rfl

theorem namesOf_renamed : ∀ stmts : List Lowered, namesOf (allRenamed ρ stmts) = (namesOf stmts).map ρ
  | [] => rfl
  | s :: rest => by simp [allRenamed, names_renamed s, namesOf_renamed rest]

theorem namesOfArms_renamed :
    ∀ arms : List LoweredArm, namesOfArms (armsRenamed ρ arms) = (namesOfArms arms).map ρ
  | [] => rfl
  | .mk test body :: rest => by
    simp [armsRenamed, namesOfArms, names_renameTest, namesOf_renamed body, namesOfArms_renamed rest]

theorem namesOfCases_renamed :
    ∀ cases : List LoweredCase, namesOfCases (casesRenamed ρ cases) = (namesOfCases cases).map ρ
  | [] => rfl
  | .mk _ guard body :: rest => by
    simp [casesRenamed, namesOfCases, Expr.namesOf?_rename, namesOf_renamed body, namesOfCases_renamed rest]

end

theorem namesOf_rename (stmts : List Lowered) : namesOf (rename ρ stmts) = (namesOf stmts).map ρ := by
  rw [← allRenamed_eq, namesOf_renamed]

end Lowered

namespace Lowering

@[simp] theorem rename_assigned (name : HiddenName) (value : Option Expr) :
    rename ρ (assigned name value) = assigned (ρ name) (rename ρ value) := by cases value <;> rfl

@[simp] theorem rename_connectiveTest (c : Connective) (name : HiddenName) :
    rename ρ (connectiveTest c name) = connectiveTest c (ρ name) := by cases c <;> rfl

theorem rename_leaveWrapper (w : WrapperNames) (v : Expr) :
    rename ρ (leaveWrapper w v) = leaveWrapper (rename ρ w) (rename ρ v) := rfl

/-- Renaming does not turn an `if` into something else. -/
theorem continueWith_rename (chain : List Lowered) :
    continueWith (rename ρ chain) = (rename ρ (continueWith chain).1, rename ρ (continueWith chain).2) := by
  match chain with
  | [] => simp [continueWith]
  | [s] =>
    cases s <;> simp [continueWith]
    all_goals rfl
  | s :: s' :: rest => simp [continueWith]

theorem placed_rename (sink : Sink) (value : Option Expr) :
    placed (rename ρ sink) (rename ρ value) = rename ρ (placed sink value) := by
  obtain ⟨destination, exitFlag⟩ := sink
  cases destination with
  | assign targets =>
    show (if (rename ρ value).isNone && (rename ρ exitFlag).isSome then _
      else if (rename ρ targets).isEmpty then _ else _) = rename ρ (if _ then _ else _)
    rw [isNone_rename, isSome_rename, isEmpty_rename]
    split
    · rfl
    · split
      · rfl
      · cases value <;> rfl
  | «return» => rfl
  | discard => cases value <;> rfl

theorem flagged_rename {flag : Option Name} (main : List Lowered)
    (hflag : ∀ name ∈ flag, (rename ρ name).isValid = name.isValid ∧
      (rename ρ name).render.isEmpty = name.render.isEmpty) :
    flagged (rename ρ flag) (rename ρ main) = rename ρ (flagged flag main) := by
  cases flag with
  | none => rfl
  | some name =>
    obtain ⟨hvalid, hempty⟩ := hflag name rfl
    show (if (rename ρ name).render.isEmpty then _ else if (rename ρ name).isValid then _ else _) =
      rename ρ (if _ then _ else _)
    rw [hvalid, hempty]
    split
    · rfl
    · split
      · show Except.ok (rename ρ main ++ _) = Except.ok (rename ρ (main ++ _))
        rw [rename_append]
        rfl
      · rfl

/-- Delivery can be renamed if the flag stays a name, or stays none. -/
theorem deliver_rename {sink : Sink} (value : Option Expr)
    (hflag : ∀ name ∈ sink.exitFlag, (rename ρ name).isValid = name.isValid ∧
      (rename ρ name).render.isEmpty = name.render.isEmpty) :
    deliver (rename ρ sink) (rename ρ value) = rename ρ (deliver sink value) := by
  rw [deliver_eq, deliver_eq, placed_rename]
  cases placed sink value with
  | error e => rfl
  | ok main => exact flagged_rename ρ main hflag

@[simp] theorem isCovered_rename (cases : List LoweredCase) : isCovered (rename ρ cases) = isCovered cases := by
  induction cases with
  | nil => rfl
  | cons case rest ih =>
    obtain ⟨pattern, guard, body⟩ := case
    rw [rename_cons, Lowered.rename_case, isCovered_cons, isCovered_cons, ih, isNone_rename]

end Lowering

/-! ### Blocks without generated names -/

mutual

/-- No generated name occurs in the block. -/
def Block.isWritten : Block → Bool
  | .mk statements tail _ _ =>
    statementsWritten statements &&
      match tail with
      | none => true
      | some t => t.isWritten

def Tail.isWritten : Tail → Bool
  | .value e => e.written
  | .escape e => e.value.written
  | .conditional c => c.isWritten
  | .block b => b.isWritten

def statementsWritten : List Statement → Bool
  | [] => true
  | s :: rest => s.isWritten && statementsWritten rest

def Statement.isWritten : Statement → Bool
  | .simple s _ => s.value.all Expr.written
  | .escape e => e.value.written
  | .letMatch _ source arms _ => source.written && armsWritten arms
  | .conditional c => c.isWritten
  | .whileLoop test body _ => test.written && body.isWritten
  | .forLoop _ iterable body _ => iterable.written && body.isWritten
  | .nested sink b _ => sink.names.isEmpty && b.isWritten

def armsWritten : List Arm → Bool
  | [] => true
  | .mk _ guard body _ _ :: rest => guard.all Expr.written && body.isWritten && armsWritten rest

def Conditional.isWritten : Conditional → Bool
  | .mk branches orelse _ =>
    branchesWritten branches &&
      match orelse with
      | none => true
      | some b => b.isWritten

def branchesWritten : List Branch → Bool
  | [] => true
  | .mk test body :: rest => test.written && body.isWritten && branchesWritten rest

end

mutual

/-- What was read from a text is of the user. -/
theorem Block.isWritten_of_wellFormed : ∀ {b : Block}, b.wellFormed true = true → b.isWritten = true
  | .mk ss none _ _, h => by
    simp only [Block.wellFormed, Bool.and_true] at h
    simp [Block.isWritten, statementsWritten_of_wellFormed h]
  | .mk ss (some t) _ _, h => by
    simp only [Block.wellFormed, Bool.and_eq_true] at h
    simp [Block.isWritten, statementsWritten_of_wellFormed h.1, Tail.isWritten_of_wellFormed h.2]

theorem Tail.isWritten_of_wellFormed : ∀ {t : Tail}, t.wellFormed true = true → t.isWritten = true
  | .value _, h => h
  | .escape _, h => h
  | .conditional _, h => Conditional.isWritten_of_wellFormed h
  | .block _, h => Block.isWritten_of_wellFormed h

theorem statementsWritten_of_wellFormed :
    ∀ {ss : List Statement}, statementsWellFormed true ss = true → statementsWritten ss = true
  | [], _ => rfl
  | s :: rest, h => by
    simp only [statementsWellFormed, Bool.and_eq_true] at h
    simp [statementsWritten, Statement.isWritten_of_wellFormed h.1, statementsWritten_of_wellFormed h.2]

theorem Statement.isWritten_of_wellFormed :
    ∀ {s : Statement}, s.wellFormed true = true → s.isWritten = true
  | .simple _ _, h => h
  | .escape _, h => h
  | .letMatch _ _ _ _, h => by
    simp only [Statement.wellFormed, Bool.and_eq_true] at h
    simp [Statement.isWritten, h.1.1, armsWritten_of_wellFormed h.2]
  | .conditional _, h => Conditional.isWritten_of_wellFormed h
  | .whileLoop _ _ _, h => by
    simp only [Statement.wellFormed, Expr.fixed, Bool.and_eq_true] at h
    simp [Statement.isWritten, h.1.1, Block.isWritten_of_wellFormed h.2]
  | .forLoop _ _ _ _, h => by
    simp only [Statement.wellFormed, Bool.and_eq_true] at h
    simp [Statement.isWritten, h.1, Block.isWritten_of_wellFormed h.2]
  | .nested _ _ _, h => by
    simp only [Statement.wellFormed, Bool.and_eq_true] at h
    simp [Statement.isWritten, Sink.names_eq_nil h.1, Block.isWritten_of_wellFormed h.2]

theorem armsWritten_of_wellFormed :
    ∀ {arms : List Arm}, armsWellFormed true arms = true → armsWritten arms = true
  | [], _ => rfl
  | .mk _ none _ _ _ :: rest, h => by
    simp only [armsWellFormed, Bool.and_eq_true] at h
    simp [armsWritten, Block.isWritten_of_wellFormed h.1.2, armsWritten_of_wellFormed h.2]
  | .mk _ (some g) _ _ _ :: rest, h => by
    simp only [armsWellFormed, Option.all_some, Expr.fixed, Bool.and_eq_true] at h
    simp [armsWritten, h.1.1.1, Block.isWritten_of_wellFormed h.1.2, armsWritten_of_wellFormed h.2]

theorem Conditional.isWritten_of_wellFormed :
    ∀ {c : Conditional}, c.wellFormed true = true → c.isWritten = true
  | .mk _ none _, h => by
    simp only [Conditional.wellFormed, Bool.and_eq_true] at h
    simp [Conditional.isWritten, branchesWritten_of_wellFormed h.1.2]
  | .mk _ (some _) _, h => by
    simp only [Conditional.wellFormed, Bool.and_eq_true] at h
    simp [Conditional.isWritten, branchesWritten_of_wellFormed h.1.2, Block.isWritten_of_wellFormed h.2]

theorem branchesWritten_of_wellFormed :
    ∀ {bs : List Branch}, branchesWellFormed true bs = true → branchesWritten bs = true
  | [], _ => rfl
  | .mk _ _ :: rest, h => by
    simp only [branchesWellFormed, Bool.and_eq_true] at h
    simp [branchesWritten, h.1.1, Block.isWritten_of_wellFormed h.1.2, branchesWritten_of_wellFormed h.2]

end

end DoBlocks
