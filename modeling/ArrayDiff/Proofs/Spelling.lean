import Mathlib.Data.List.Forall2
import ArrayDiff.Graph.Printer
import ArrayDiff.Proofs.Evaluation

/-!
# How definitions are spelled

What expressions and definitions look like as text, said apart from the functions that print them. Pure variables can be
shown as expressions; each is then spelled like the expression that it is shown as. An expression has one spelling only,
which is the one that is printed (`Expr.spelledAs_iff`), and so has a definition (`Definition.spelledAs_iff`).
-/

namespace ArrayDiff

variable {κ : Type} [Literal κ]

section Spellings

variable (nameOf : Target → String) (varText : Name → String)

/-- Targets and reduction variables are spelled by their names, and pure variables as `varText` says. Operators with a
symbol stand between their operands, in parentheses; everything else looks like a call. -/
inductive Expr.SpelledAs : Expr κ → String → Prop where
  | const (c : κ) : SpelledAs (.const c) (Literal.text c)
  | var (x : Name) : SpelledAs (.var x) (varText x)
  | rvar (x : Name) : SpelledAs (.rvar x) x
  | param (p : ParamId) : SpelledAs (.param p) (nameOf (.param p))
  | call {f : FuncId} {args : List (Expr κ)} {texts : List String} : List.Forall₂ SpelledAs args texts →
    SpelledAs (.call f args) (nameOf (.func f) ++ "(" ++ ", ".intercalate texts ++ ")")
  | load {b : BufferId} {args : List (Expr κ)} {texts : List String} : List.Forall₂ SpelledAs args texts →
    SpelledAs (.load b args) (nameOf (.buffer b) ++ "(" ++ ", ".intercalate texts ++ ")")
  | unary {op : UnaryOp} {a : Expr κ} {s : String} : SpelledAs a s →
    SpelledAs (.unary op a) (op.name ++ "(" ++ s ++ ")")
  | infixed {op : BinaryOp} {a b : Expr κ} {s t symbol : String} : op.symbol? = some symbol → SpelledAs a s →
    SpelledAs b t → SpelledAs (.binary op a b) ("(" ++ s ++ " " ++ symbol ++ " " ++ t ++ ")")
  | named {op : BinaryOp} {a b : Expr κ} {s t : String} : op.symbol? = none → SpelledAs a s → SpelledAs b t →
    SpelledAs (.binary op a b) (op.name ++ "(" ++ s ++ ", " ++ t ++ ")")
  | compare {op : Comparison} {a b : Expr κ} {s t : String} : SpelledAs a s → SpelledAs b t →
    SpelledAs (.compare op a b) ("(" ++ s ++ " " ++ op.symbol ++ " " ++ t ++ ")")
  | and {a b : Expr κ} {s t : String} : SpelledAs a s → SpelledAs b t →
    SpelledAs (.and a b) ("(" ++ s ++ " && " ++ t ++ ")")
  | or {a b : Expr κ} {s t : String} : SpelledAs a s → SpelledAs b t →
    SpelledAs (.or a b) ("(" ++ s ++ " || " ++ t ++ ")")
  | not {a : Expr κ} {s : String} : SpelledAs a s → SpelledAs (.not a) ("!" ++ s)
  | select {c a b : Expr κ} {r s t : String} : SpelledAs c r → SpelledAs a s → SpelledAs b t →
    SpelledAs (.select c a b) ("select(" ++ r ++ ", " ++ s ++ ", " ++ t ++ ")")

variable (func : Name)

/-- A line `func(position) = value`, with ` over x in [min, max], ...` at its end if there is a reduction domain. -/
inductive Definition.SpelledAs : Definition κ → String → Prop where
  | pointwise {lhs : List (Expr κ)} {value : Expr κ} {position : List String} {s : String} :
    List.Forall₂ (Expr.SpelledAs nameOf varText) lhs position → value.SpelledAs nameOf varText s →
    SpelledAs ⟨lhs, value, none⟩ (func ++ "(" ++ ", ".intercalate position ++ ") = " ++ s ++ "\n")
  | reduced {lhs : List (Expr κ)} {value : Expr κ} {rdom : ReductionDomain} {position : List String} {s : String} :
    List.Forall₂ (Expr.SpelledAs nameOf varText) lhs position → value.SpelledAs nameOf varText s →
    SpelledAs ⟨lhs, value, some rdom⟩ (func ++ "(" ++ ", ".intercalate position ++ ") = " ++ s ++ " over " ++
      ", ".intercalate (rdom.dims.map fun d => d.1 ++ " in [" ++ toString d.2.min ++ ", " ++ toString d.2.max ++ "]") ++
      "\n")

end Spellings

/-- A pure variable is spelled by its name, unless it is shown as an expression: then like that, with the variables in
it as they are. -/
structure SpelledVars (nameOf : Target → String) (shown : Name → Option (Expr κ)) (varText : Name → String) : Prop where
  plain {x : Name} : shown x = none → varText x = x
  shown {x : Name} {e : Expr κ} : shown x = some e → e.SpelledAs nameOf id (varText x)

variable {nameOf : Target → String} {σ : Name → Option (Expr κ)} {func : Name}

namespace Expr

variable {e : Expr κ} {es : List (Expr κ)} {t : String} {texts : List String}

/-- The text of what a pure variable is shown as. -/
def shownText (nameOf : Target → String) (σ : Name → Option (Expr κ)) (x : Name) : String :=
  ((σ x).getD (.var x)).text nameOf

theorem textList_eq (nameOf : Target → String) (es : List (Expr κ)) :
    textList nameOf es = ", ".intercalate (es.map (text nameOf)) := by
  induction es with
  | nil => rfl
  | cons e es ih =>
    cases es with
    | nil => simp [textList]
    | cons e' es =>
      rw [textList, ih, List.map_cons, List.map_cons, List.map_cons, String.intercalate_cons_cons]
      · rfl
      · exact nofun

theorem textList_bindList (nameOf : Target → String) (σ τ : Name → Option (Expr κ)) (es : List (Expr κ)) :
    textList nameOf (bindList σ τ es) = ", ".intercalate (es.map fun e => (e.bind σ τ).text nameOf) := by
  rw [textList_eq, bindList_eq_map, List.map_map]
  rfl

theorem spelledAs_text (nameOf : Target → String) (σ : Name → Option (Expr κ)) (e : Expr κ) :
    e.SpelledAs nameOf (shownText nameOf σ) ((e.substitute σ).text nameOf) := by
  unfold substitute
  induction e with
  | const | var | rvar | param => constructor
  | call f args ih =>
    rw [bind, text, textList_bindList]
    exact .call (List.forall₂_map_right_iff.mpr (List.forall₂_same.mpr ih))
  | load b args ih =>
    rw [bind, text, textList_bindList]
    exact .load (List.forall₂_map_right_iff.mpr (List.forall₂_same.mpr ih))
  | unary op a ih => exact .unary ih
  | binary op a b iha ihb =>
    rw [bind, text]
    cases symbol : op.symbol? with
    | some s => exact .infixed symbol iha ihb
    | none => exact .named symbol iha ihb
  | compare op a b iha ihb => exact .compare iha ihb
  | and a b iha ihb => exact .and iha ihb
  | or a b iha ihb => exact .or iha ihb
  | not a ih => exact .not ih
  | select c a b ihc iha ihb => exact .select ihc iha ihb

theorem eq_map_text (spelled : List.Forall₂ (SpelledAs nameOf (shownText nameOf σ)) es texts)
    (only : ∀ e ∈ es, ∀ {t}, e.SpelledAs nameOf (shownText nameOf σ) t → t = (e.substitute σ).text nameOf) :
    texts = es.map fun e => (e.substitute σ).text nameOf := by
  induction spelled with
  | nil => rfl
  | cons first _ ih =>
    rw [List.map_cons, only _ List.mem_cons_self first, ih fun e mem => only e (List.mem_cons_of_mem _ mem)]

theorem SpelledAs.eq_text (spelled : e.SpelledAs nameOf (shownText nameOf σ) t) :
    t = (e.substitute σ).text nameOf := by
  induction e generalizing t with
  | const | var | rvar | param =>
    cases spelled
    rfl
  | call f args ih =>
    cases spelled with
    | call arguments =>
      rw [eq_map_text arguments ih, substitute, bind, text, textList_bindList]
      rfl
  | load b args ih =>
    cases spelled with
    | load arguments =>
      rw [eq_map_text arguments ih, substitute, bind, text, textList_bindList]
      rfl
  | unary op a ih =>
    cases spelled with
    | unary operand =>
      rw [ih operand]
      rfl
  | binary op a b iha ihb =>
    cases spelled with
    | infixed symbol left right | named symbol left right =>
      rw [iha left, ihb right]
      change _ = text nameOf (binary op (a.substitute σ) (b.substitute σ))
      rw [text, symbol]
      rfl
  | compare op a b iha ihb =>
    cases spelled with
    | compare left right =>
      rw [iha left, ihb right]
      rfl
  | and a b iha ihb =>
    cases spelled with
    | and left right =>
      rw [iha left, ihb right]
      rfl
  | or a b iha ihb =>
    cases spelled with
    | or left right =>
      rw [iha left, ihb right]
      rfl
  | not a ih =>
    cases spelled with
    | not operand =>
      rw [ih operand]
      rfl
  | select c a b ihc iha ihb =>
    cases spelled with
    | select condition left right =>
      rw [ihc condition, iha left, ihb right]
      rfl

/-- An expression has one spelling, which is how it is printed when its variables are shown as expressions. -/
theorem spelledAs_iff : e.SpelledAs nameOf (shownText nameOf σ) t ↔ t = (e.substitute σ).text nameOf :=
  ⟨SpelledAs.eq_text, fun same => same ▸ spelledAs_text nameOf σ e⟩

theorem forall₂_spelledAs_iff : List.Forall₂ (SpelledAs nameOf (shownText nameOf σ)) es texts ↔
    texts = es.map fun e => (e.substitute σ).text nameOf :=
  ⟨fun spelled => eq_map_text spelled fun _ _ _ => SpelledAs.eq_text,
    fun same => same ▸ List.forall₂_map_right_iff.mpr (List.forall₂_same.mpr fun e _ => spelledAs_text nameOf σ e)⟩

/-- Variables that are shown as themselves are spelled by their names. -/
theorem spelledAs_id_iff : e.SpelledAs nameOf id t ↔ t = e.text nameOf := by
  have plain : e.SpelledAs nameOf (shownText nameOf fun _ => none) t ↔ _ := spelledAs_iff
  rwa [substitute, bind_none] at plain

theorem spelledVars_iff {varText : Name → String} : SpelledVars nameOf σ varText ↔ varText = shownText nameOf σ := by
  constructor
  · intro spelled
    funext x
    unfold shownText
    cases known : σ x with
    | none => exact spelled.plain known
    | some e => exact spelledAs_id_iff.mp (spelled.shown known)
  · rintro rfl
    constructor
    · intro x unknown
      unfold shownText
      rw [unknown]
      rfl
    · intro x e known
      unfold shownText
      rw [known]
      exact spelledAs_id_iff.mpr rfl

end Expr

namespace Definition

variable {d : Definition κ} {t : String}

theorem text_pointwise (lhs : List (Expr κ)) (value : Expr κ) : text nameOf func ⟨lhs, value, none⟩ =
    func ++ "(" ++ ", ".intercalate (lhs.map (Expr.text nameOf)) ++ ") = " ++ value.text nameOf ++ "\n" := by
  rw [text, Expr.textList_eq]
  exact congrArg (· ++ "\n") String.append_empty

theorem text_reduced (lhs : List (Expr κ)) (value : Expr κ) (rdom : ReductionDomain) :
    text nameOf func ⟨lhs, value, some rdom⟩ =
      func ++ "(" ++ ", ".intercalate (lhs.map (Expr.text nameOf)) ++ ") = " ++ value.text nameOf ++ " over " ++
        ", ".intercalate (rdom.dims.map fun d =>
          d.1 ++ " in [" ++ toString d.2.min ++ ", " ++ toString d.2.max ++ "]") ++ "\n" := by
  rw [text, Expr.textList_eq]
  exact congrArg (· ++ "\n") String.append_assoc.symm

/-- A definition has one spelling, which is how it is printed when its variables are shown as expressions. -/
theorem spelledAs_iff :
    d.SpelledAs nameOf (Expr.shownText nameOf σ) func t ↔ t = (d.map (·.substitute σ)).text nameOf func := by
  constructor
  · rintro (⟨lhs, value⟩ | ⟨lhs, value⟩)
    · rw [Definition.map, text_pointwise, List.map_map, Expr.forall₂_spelledAs_iff.mp lhs, Expr.spelledAs_iff.mp value]
      rfl
    · rw [Definition.map, text_reduced, List.map_map, Expr.forall₂_spelledAs_iff.mp lhs, Expr.spelledAs_iff.mp value]
      rfl
  · rintro rfl
    obtain ⟨lhs, value, _ | rdom⟩ := d
    · rw [Definition.map, text_pointwise, List.map_map]
      exact .pointwise (Expr.forall₂_spelledAs_iff.mpr rfl) (Expr.spelledAs_text nameOf σ value)
    · rw [Definition.map, text_reduced, List.map_map]
      exact .reduced (Expr.forall₂_spelledAs_iff.mpr rfl) (Expr.spelledAs_text nameOf σ value)

end Definition

end ArrayDiff
