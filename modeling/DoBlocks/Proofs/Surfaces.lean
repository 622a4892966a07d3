import DoBlocks.Block.Parser
import DoBlocks.Proofs.GrammarShape

/-!
# What is printed for a tree

Expressions, simple statements and targets print the lexemes of the trees they were read from: reading
them off a tree moves text between their parts and loses none of it.
-/

namespace DoBlocks.Host

/-! ### Surfaces of lexemes -/

/-- The gap before the first of some lexemes. -/
def gapOf : List Lexeme → Surface
  | [] => []
  | l :: _ => l.gap

theorem surfaceOf_append {ls ms : List Lexeme} (hls : ls ≠ []) :
    surfaceOf (ls ++ ms) = surfaceOf ls ++ gapOf ms ++ surfaceOf ms := by
  cases ls with
  | nil => exact absurd rfl hls
  | cons l ls =>
    cases ms with
    | nil => simp [surfaceOf, gapOf]
    | cons m ms => simp [surfaceOf, gapOf]

namespace Tree

variable {t : Tree} {ls : List Lexeme} {ts : List Tree} {k : Kind}

theorem Full.lexemes_ne_nil (h : t.Full) : t.lexemes ≠ [] := by
  induction h with
  | leaf l => simp [lexemes]
  | @node k children hne _ ih =>
    cases children with
    | nil => exact absurd rfl hne
    | cons t ts => simp [lexemes, lexemesOf, ih t (by simp)]

theorem gap_eq (t : Tree) : t.gap = gapOf t.lexemes := by
  unfold gap
  split <;> simp_all [gapOf]

theorem surfaceOf_append_lexemes (hls : ls ≠ []) (t : Tree) :
    surfaceOf (ls ++ t.lexemes) = surfaceOf ls ++ t.gap ++ t.surface := by
  rw [surfaceOf_append hls, gap_eq, surface]

@[simp] theorem surface_leaf (l : Lexeme) : (Tree.leaf l).surface = l.surface := by
  simp [surface, lexemes, surfaceOf]

@[simp] theorem gap_leaf (l : Lexeme) : (Tree.leaf l).gap = l.gap := rfl

theorem surfaceOf_append_lexemesOf (hls : ls ≠ []) (ts : List Tree) :
    surfaceOf (ls ++ lexemesOf ts) = surfaceOf ls ++ ts.flatMap fun t => t.gap ++ t.surface := by
  induction ts generalizing ls with
  | nil => simp [lexemesOf]
  | cons t ts ih =>
    rw [lexemesOf, ← List.append_assoc, ih (by simp [hls]), surfaceOf_append_lexemes hls]
    simp

/-- Consecutive trees are printed with the gaps between them. -/
theorem surfaceOf_lexemesOf (h : t.Full) :
    surfaceOf (lexemesOf (t :: ts)) = t.surface ++ ts.flatMap fun t => t.gap ++ t.surface :=
  surfaceOf_append_lexemesOf h.lexemes_ne_nil ts

theorem surface_node (h : t.Full) :
    (Tree.node k (t :: ts)).surface = t.surface ++ ts.flatMap fun t => t.gap ++ t.surface :=
  surfaceOf_lexemesOf h

/-! ### Expressions -/

theorem surface_of_ofWord? {l : Lexeme} {c : Connective} (h : Connective.ofWord? l.text = some c) :
    l.surface = .ofString c.render := by
  unfold Connective.ofWord? at h
  split at h
  · rename_i htext
    cases h
    simp [Lexeme.surface, eq_of_beq htext, Surface.ofString, Connective.render]
  · split at h
    · rename_i htext
      cases h
      simp [Lexeme.surface, eq_of_beq htext, Surface.ofString, Connective.render]
    · cases h

/-- An expression prints all of its tree. -/
theorem exprWithin_surface (h : t.Full) (opening closing : Surface) :
    (exprWithin opening closing t).surface = opening ++ t.surface ++ closing := by
  induction h generalizing opening closing with
  | leaf l => simp [exprWithin, Expr.surface]
  | @node k children hne hfull ih =>
    unfold exprWithin
    split
    · rename_i l inner r
      rw [ih inner (by simp), surface_node (hfull (.leaf l) (by simp))]
      simp
    · rename_i left w right
      split
      · rename_i c hc
        rw [surface_node (hfull left (by simp))]
        simp [Expr.surface, ih left (by simp), ih right (by simp), surface_of_ofWord? hc]
      · rfl
    · rename_i left w right
      split
      · rename_i c hc
        rw [surface_node (hfull left (by simp))]
        simp [Expr.surface, ih left (by simp), ih right (by simp), surface_of_ofWord? hc]
      · rfl
    · rename_i body i test e orelse
      rw [surface_node (hfull body (by simp))]
      simp [Expr.surface, ih body (by simp), ih test (by simp), ih orelse (by simp)]
    · dsimp only
      split <;> rfl

theorem toExpr_surface (h : t.Full) : t.toExpr.surface = t.surface := by
  simp [toExpr, exprWithin_surface h]

/-! ### Simple statements -/

theorem flatMap_lexemes (ts : List Tree) : ts.flatMap lexemes = lexemesOf ts := by
  induction ts with
  | nil => rfl
  | cons t ts ih => rw [List.flatMap_cons, lexemesOf, ih]

theorem leadText_concat (hne : ts ≠ []) (v : Tree) :
    leadText (ts ++ [v]) = surfaceOf (lexemesOf ts) ++ v.gap := by
  obtain ⟨first, rest, rfl⟩ := List.exists_cons_of_ne_nil hne
  obtain ⟨second, more, hrest⟩ := List.exists_cons_of_ne_nil (l := rest ++ [v]) (by simp)
  have hlast : (second :: more).getLast? = some v := by rw [← hrest, List.getLast?_concat]
  have hinit : (first :: second :: more).dropLast = first :: rest := by
    rw [← hrest, ← List.cons_append, List.dropLast_concat]
  rw [List.cons_append, hrest, leadText, hinit, hlast, flatMap_lexemes]
  · rfl
  · exact nofun

/-- A statement with its value last prints all of its tree. -/
theorem valueLast_surface {children : List Tree} {form : SimpleForm} (hne : children ≠ [])
    (hfull : ∀ t ∈ children, t.Full) :
    (valueLast form children).surface = (Tree.node k children).surface := by
  obtain ⟨before, v, rfl⟩ : ∃ before v, children = before ++ [v] :=
    ⟨_, _, (List.dropLast_concat_getLast hne).symm⟩
  have hv := hfull v (by simp)
  unfold valueLast
  rw [List.getLast?_concat]
  simp only [Simple.surface, Option.map_some, Option.getD_some, toExpr_surface hv]
  cases before with
  | nil => simp [leadText, surface_node hv]
  | cons first rest =>
    have hfirst := hfull first (by simp)
    rw [leadText_concat (by simp), List.cons_append, surface_node hfirst, surfaceOf_lexemesOf hfirst]
    simp

theorem toSimple_surface (h : t.Full) : t.toSimple.surface = t.surface := by
  have hvalueless (form : SimpleForm) : (valueless form t).surface = t.surface := by
    simp [valueless, Simple.surface]
  cases h with
  | leaf l => exact hvalueless .other
  | @node k children hne hfull =>
    unfold toSimple
    split
    · rename_i heq
      cases heq
      exact valueLast_surface hne hfull
    · rename_i heq
      cases heq
      exact valueLast_surface hne hfull
    · rename_i heq
      cases heq
      split
      · exact valueLast_surface hne hfull
      · exact hvalueless _
    · rename_i heq
      cases heq
      split
      · exact hvalueless _
      · exact valueLast_surface hne hfull
    all_goals exact hvalueless _

/-! ### Targets -/

/-- The targets of an assignment print all that comes before its value, with the gap after it. -/
theorem targetsOf_surface (h : Grammar.Targeted ts) (hfull : ∀ t ∈ ts, t.Full) (v : Tree) :
    (BlockReader.targetsOf (ts ++ [v])).flatMap Target.surface =
      surfaceOf (lexemesOf ts) ++ if ts = [] then [] else v.gap := by
  induction h with
  | nil => rfl
  | @cons t equals rest hequals hrest ih =>
    have ht := hfull t (by simp)
    have ih := ih fun u hu => hfull u (by simp [hu])
    rw [surfaceOf_lexemesOf ht]
    cases hrest with
    | nil => simp [BlockReader.targetsOf, Target.surface]
    | @cons u equals' rest hequals' _ =>
      rw [surfaceOf_lexemesOf (hfull u (by simp))] at ih
      simp only [List.cons_append, BlockReader.targetsOf, List.flatMap_cons, Target.surface] at ih ⊢
      rw [ih]
      simp

end Tree

end DoBlocks.Host
