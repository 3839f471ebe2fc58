import ArrayDiff.Adjoint.Sweep
import ArrayDiff.Proofs.Coordinates
import ArrayDiff.Proofs.Lawful

/-!
# Reflected positions

A reflected expression is the simplified expression with its reduction variables replaced (`Sweep.reflect_eq`): nothing
that simplification takes out of an expression comes back when the domain is run through backwards. A coordinate stays
a pure variable, or stays free of pure variables.
-/

namespace ArrayDiff

variable {κ : Type}

/-- Integer constants are equal to themselves, as only something that is not a number is not. -/
class ReflexiveIntegers (κ : Type) [Scalar κ] : Prop where
  equal_ofInt (k : Int) : Scalar.equal (Scalar.ofInt k : κ) (Scalar.ofInt k) = true

namespace Expr

variable [Scalar κ]

mutual

/-- Reduction variables are replaced, and a sign before one is merged with the sign of its image. -/
def mirrored (image : Name → Expr κ) : Expr κ → Expr κ
  | const c => const c
  | var x => var x
  | rvar x => image x
  | param p => param p
  | call f args => call f (mirroredList image args)
  | load b args => load b (mirroredList image args)
  | unary op (rvar x) => Smart.unary op (image x)
  | unary op a => unary op (mirrored image a)
  | binary op a b => binary op (mirrored image a) (mirrored image b)
  | compare op a b => compare op (mirrored image a) (mirrored image b)
  | and a b => and (mirrored image a) (mirrored image b)
  | or a b => or (mirrored image a) (mirrored image b)
  | not a => not (mirrored image a)
  | select c t f => select (mirrored image c) (mirrored image t) (mirrored image f)

def mirroredList (image : Name → Expr κ) : List (Expr κ) → List (Expr κ)
  | [] => []
  | e :: es => mirrored image e :: mirroredList image es

end

/-- What a reduction variable can become. -/
def Image (x : Name) (e : Expr κ) : Prop :=
  e = rvar x ∨ e = unary .neg (rvar x) ∨
    ∃ k, Scalar.isZero (Scalar.ofInt k : κ) = false ∧ e = binary .sub (ofInt k) (rvar x)

variable {image : Name → Expr κ} {a b c e : Expr κ} {x : Name}

theorem mirroredList_eq_map (es : List (Expr κ)) : mirroredList image es = es.map (mirrored image) := by
  induction es with
  | nil => rfl
  | cons e es ih => simp [mirroredList, ih]

theorem mirrored_rvar (x : Name) : (rvar x).mirrored image = image x := by rw [mirrored]

theorem mirrored_unary_rvar (op : UnaryOp) (x : Name) : (unary op (rvar x)).mirrored image = Smart.unary op (image x) := by
  rw [mirrored]

theorem mirrored_unary (op : UnaryOp) (other : ∀ x, a ≠ rvar x) :
    (unary op a).mirrored image = unary op (a.mirrored image) := by
  cases a with
  | rvar x => exact absurd rfl (other x)
  | _ => rfl

/-! ### Heads -/

/-- The same label at the root. -/
def sameHead : Expr κ → Expr κ → Bool
  | const a, const b => Scalar.equal a b
  | var x, var y | rvar x, rvar y => x == y
  | param p, param q => p == q
  | call f _, call g _ => f == g
  | load b _, load c _ => b == c
  | unary op _, unary op' _ => op == op'
  | binary op _ _, binary op' _ _ => op == op'
  | compare op _ _, compare op' _ _ => op == op'
  | and _ _, and _ _ | or _ _, or _ _ | not _, not _ | select _ _ _, select _ _ _ => true
  | _, _ => false

theorem same_eq (a b : Expr κ) : a.same b = (a.sameHead b && sameList a.children b.children) := by
  cases a <;> cases b <;> first | rfl | simp [same, sameHead, sameList, children, Bool.and_assoc]

theorem same_rvar : (rvar x).same e = true ↔ e = rvar x := by
  cases e with
  | rvar y => simpa [same] using eq_comm
  | _ => simp [same]

theorem same_rvar_right : e.same (rvar x) = true ↔ e = rvar x := by
  cases e <;> simp [same]

/-- Neither a reduction variable nor an operator of one operand, and so with the same root after mirroring. -/
def Solid : Expr κ → Prop
  | rvar _ | unary .. => False
  | _ => True

theorem sameHead_mirrored (ha : a.Solid) (hb : b.Solid) :
    (a.mirrored image).sameHead (b.mirrored image) = a.sameHead b := by
  cases a <;> first | exact ha.elim | cases b <;> first | exact hb.elim | rfl

theorem children_mirrored (h : a.Solid) : (a.mirrored image).children = a.children.map (mirrored image) := by
  cases a <;> first | exact h.elim | simp [mirrored, children, mirroredList_eq_map]

theorem same_solid_unary (h : a.Solid) (op : UnaryOp) (c : Expr κ) : (a.mirrored image).same (unary op c) = false := by
  cases a <;> first | exact h.elim | simp [mirrored, same]

theorem same_solid_rvar (h : a.Solid) (x : Name) : (a.mirrored image).same (rvar x) = false := by
  cases a <;> first | exact h.elim | simp [mirrored, same]

theorem sameList_mirrored {as bs : List (Expr κ)}
    (each : ∀ a ∈ as, ∀ b ∈ bs, (a.mirrored image).same (b.mirrored image) = a.same b) :
    sameList (as.map (mirrored image)) (bs.map (mirrored image)) = sameList as bs := by
  induction as generalizing bs with
  | nil => cases bs <;> rfl
  | cons a as ih =>
    cases bs with
    | nil => rfl
    | cons b bs =>
      simp only [List.map_cons, sameList, each a List.mem_cons_self b List.mem_cons_self,
        ih fun a mem b mem' => each a (List.mem_cons_of_mem _ mem) b (List.mem_cons_of_mem _ mem')]

section Images

variable (images : ∀ x, Image x (image x))
include images

/-- A sign is merged only before a variable that is given one. -/
theorem mirrored_unary_cases (op : UnaryOp) (a : Expr κ) :
    (unary op a).mirrored image = unary op (a.mirrored image) ∨
      op = .neg ∧ ∃ x, a = rvar x ∧ image x = unary .neg (rvar x) ∧ (unary op a).mirrored image = rvar x := by
  by_cases leaf : ∃ x, a = rvar x
  · obtain ⟨x, rfl⟩ := leaf
    rw [mirrored_unary_rvar, mirrored_rvar]
    obtain same | same | ⟨k, -, same⟩ := images x
    · rw [same]
      exact Or.inl rfl
    · by_cases sign : op = .neg
      · subst sign
        exact Or.inr ⟨rfl, x, rfl, same, by rw [same]; rfl⟩
      · rw [same]
        exact Or.inl (if_neg sign)
    · rw [same]
      exact Or.inl rfl
  · exact Or.inl (mirrored_unary op fun x same => leaf ⟨x, same⟩)

/-! ### Comparison -/

theorem eq_of_mirrored_rvar (h : b.mirrored image = rvar x) :
    b = rvar x ∧ image x = rvar x ∨ b = unary .neg (rvar x) ∧ image x = unary .neg (rvar x) := by
  cases b with
  | rvar y =>
    have own : image y = rvar x := by rwa [mirrored_rvar] at h
    obtain same | same | ⟨k, -, same⟩ := images y
    · obtain rfl := rvar.inj (same.symm.trans own)
      exact Or.inl ⟨rfl, same⟩
    · cases same.symm.trans own
    · cases same.symm.trans own
  | unary op a =>
    obtain same | ⟨rfl, y, rfl, negated, same⟩ := mirrored_unary_cases images op a
    · cases same.symm.trans h
    · obtain rfl := rvar.inj (same.symm.trans h)
      exact Or.inr ⟨rfl, negated⟩
  | _ => simp [mirrored] at h

theorem eq_rvar_of_negated (short : b.ShortSigns) (own : image x = unary .neg (rvar x))
    (h : b.mirrored image = unary .neg (rvar x)) : b = rvar x := by
  cases b with
  | rvar y =>
    have shape : image y = unary .neg (rvar x) := by rwa [mirrored_rvar] at h
    obtain same | same | ⟨k, -, same⟩ := images y
    · cases same.symm.trans shape
    · exact (unary.inj (same.symm.trans shape)).2
    · cases same.symm.trans shape
  | unary op a =>
    obtain same | ⟨-, y, -, -, same⟩ := mirrored_unary_cases images op a
    · obtain ⟨rfl, inner⟩ := unary.inj (same.symm.trans h)
      rcases eq_of_mirrored_rvar images inner with ⟨-, kept⟩ | ⟨rfl, -⟩
      · cases kept.symm.trans own
      · exact absurd rfl ((short _ (mem_nodes_self _)).2 (rvar x))
    · cases same.symm.trans h
  | _ => simp [mirrored] at h

theorem eq_rvar_of_shifted {d : Expr κ} (own : image x = binary .sub d (rvar x)) {op : BinaryOp} {c : Expr κ}
    (h : b.mirrored image = binary op c (rvar x)) : b = rvar x := by
  cases b with
  | rvar y =>
    have shape : image y = binary op c (rvar x) := by rwa [mirrored_rvar] at h
    obtain same | same | ⟨k, -, same⟩ := images y
    · cases same.symm.trans shape
    · cases same.symm.trans shape
    · exact (binary.inj (same.symm.trans shape)).2.2
  | unary op' a =>
    obtain same | ⟨-, y, -, -, same⟩ := mirrored_unary_cases images op' a
    · cases same.symm.trans h
    · cases same.symm.trans h
  | binary op' a b =>
    rw [mirrored] at h
    rcases eq_of_mirrored_rvar images (binary.inj h).2.2 with ⟨-, kept⟩ | ⟨-, negated⟩
    · cases kept.symm.trans own
    · cases negated.symm.trans own
  | _ => simp [mirrored] at h

theorem eq_rvar_of_same (short : b.ShortSigns)
    (h : (image x).same (b.mirrored image) = true ∨ (b.mirrored image).same (image x) = true) : b = rvar x := by
  obtain own | own | ⟨k, -, own⟩ := images x
  · rw [own, same_rvar, same_rvar_right, or_self] at h
    rcases eq_of_mirrored_rvar images h with ⟨same, -⟩ | ⟨-, negated⟩
    · exact same
    · cases own.symm.trans negated
  · apply eq_rvar_of_negated images short own
    rw [own] at h
    cases shape : b.mirrored image <;> rw [shape] at h <;> simp [same, same_rvar, same_rvar_right] at h
    rcases h with ⟨rfl, rfl⟩ | ⟨rfl, rfl⟩ <;> rfl
  · rw [own] at h
    cases shape : b.mirrored image <;> rw [shape] at h <;> simp [same, same_rvar, same_rvar_right] at h
    have last : ∀ op c d, b.mirrored image = binary op c d → d = rvar x → b = rvar x := by
      rintro op c d shape rfl
      exact eq_rvar_of_shifted images own shape
    exact last _ _ _ shape (h.elim And.right And.right)

variable [ReflexiveIntegers κ]

theorem same_image (x : Name) : (image x).same (image x) = true := by
  obtain same | same | ⟨k, -, same⟩ := images x <;> rw [same]
  · simp [Expr.same]
  · simp [Expr.same]
  · simp [Expr.same, ofInt, ReflexiveIntegers.equal_ofInt]

/-- Mirrored expressions are the same exactly when the expressions are. -/
theorem same_mirrored (ha : a.ShortSigns) (hb : b.ShortSigns) :
    (a.mirrored image).same (b.mirrored image) = a.same b := by
  have left (x : Name) {e : Expr κ} (short : e.ShortSigns) :
      ((rvar x).mirrored image).same (e.mirrored image) = (rvar x).same e := by
    rw [mirrored_rvar, Bool.eq_iff_iff, same_rvar]
    refine ⟨fun h => eq_rvar_of_same images short (.inl h), ?_⟩
    rintro rfl
    rw [mirrored_rvar]
    exact same_image images x
  have right (x : Name) {e : Expr κ} (short : e.ShortSigns) :
      (e.mirrored image).same ((rvar x).mirrored image) = e.same (rvar x) := by
    rw [mirrored_rvar, Bool.eq_iff_iff, same_rvar_right]
    refine ⟨fun h => eq_rvar_of_same images short (.inr h), ?_⟩
    rintro rfl
    rw [mirrored_rvar]
    exact same_image images x
  have solid {a b : Expr κ} (root : a.Solid) (ha : a.ShortSigns) (hb : b.ShortSigns)
      (ih : ∀ c ∈ a.children, ∀ {b : Expr κ}, c.ShortSigns → b.ShortSigns →
        (c.mirrored image).same (b.mirrored image) = c.same b) :
      (a.mirrored image).same (b.mirrored image) = a.same b := by
    by_cases other : b.Solid
    · rw [same_eq, same_eq a b, sameHead_mirrored root other, children_mirrored root, children_mirrored other,
        sameList_mirrored fun c mem d mem' => ih c mem (ha.child mem) (hb.child mem')]
    cases b with
    | rvar y => exact right y ha
    | unary op b =>
      have apart : a.same (unary op b) = false := by cases a <;> first | exact root.elim | simp [same]
      rw [apart]
      rcases mirrored_unary_cases images op b with same | ⟨-, y, -, -, same⟩
      · rw [same, same_solid_unary root]
      · rw [same, same_solid_rvar root]
    | _ => exact absurd trivial other
  induction a generalizing b with
  | rvar x => exact left x hb
  | unary op a ih =>
    rcases mirrored_unary_cases images op a with plain | ⟨rfl, x, rfl, negated, merged⟩
    · cases b with
      | rvar y => exact right y ha
      | unary op' b =>
        rcases mirrored_unary_cases images op' b with plain' | ⟨rfl, y, rfl, -, merged⟩
        · rw [plain, plain', same, same, ih (ha.child (by simp [children])) (hb.child (by simp [children]))]
        · have apart : (unary op a).same (unary .neg (rvar y)) ≠ true := by
            intro same
            simp only [Expr.same, Bool.and_eq_true, beq_iff_eq, same_rvar_right] at same
            obtain ⟨rfl, rfl⟩ := same
            cases plain.symm.trans merged
          rw [plain, merged, Bool.eq_false_iff.mpr apart]
          rfl
      | _ => simp [plain, mirrored, same]
    · rw [merged, Bool.eq_iff_iff, same_rvar]
      constructor
      · intro h
        rcases eq_of_mirrored_rvar images h with ⟨-, kept⟩ | ⟨rfl, -⟩
        · cases kept.symm.trans negated
        · simp [same]
      · intro h
        cases b with
        | unary op b =>
          simp only [same, Bool.and_eq_true, beq_iff_eq, same_rvar] at h
          obtain ⟨rfl, rfl⟩ := h
          exact merged
        | _ => simp [same] at h
  | const _ | var _ | param _ => exact solid trivial ha hb fun _ mem => absurd mem List.not_mem_nil
  | call _ _ ih | load _ _ ih => exact solid trivial ha hb ih
  | not _ ih => exact solid trivial ha hb (List.forall_mem_singleton.mpr @ih)
  | binary _ _ _ iha ihc | compare _ _ _ iha ihc | and _ _ iha ihc | or _ _ iha ihc =>
    exact solid trivial ha hb (by simpa [children] using ⟨iha, ihc⟩)
  | select _ _ _ ihc iht ihf => exact solid trivial ha hb (by simpa [children] using ⟨ihc, iht, ihf⟩)

/-! ### Simplification -/

omit [ReflexiveIntegers κ]

theorem const?_mirrored (a : Expr κ) : (a.mirrored image).const? = a.const? := by
  cases a with
  | rvar x =>
    rw [mirrored_rvar]
    obtain same | same | ⟨k, -, same⟩ := images x <;> rw [same] <;> rfl
  | unary op a =>
    rcases mirrored_unary_cases images op a with same | ⟨-, x, -, -, same⟩ <;> rw [same] <;> rfl
  | _ => simp [mirrored, const?]

omit images in
theorem isZero_eq (e : Expr κ) : e.isZero = e.const?.any Scalar.isZero := by cases e <;> rfl

omit images in
theorem isOne_eq (e : Expr κ) : e.isOne = e.const?.any Scalar.isOne := by cases e <;> rfl

omit images in
theorem isMinusOne_eq (e : Expr κ) : Smart.isMinusOne e = e.const?.any (Scalar.equal · Scalar.minusOne) := by
  cases e <;> rfl

theorem isZero_mirrored (a : Expr κ) : (a.mirrored image).isZero = a.isZero := by
  rw [isZero_eq, isZero_eq, const?_mirrored images]

theorem isOne_mirrored (a : Expr κ) : (a.mirrored image).isOne = a.isOne := by
  rw [isOne_eq, isOne_eq, const?_mirrored images]

theorem isMinusOne_mirrored (a : Expr κ) : Smart.isMinusOne (a.mirrored image) = Smart.isMinusOne a := by
  rw [isMinusOne_eq, isMinusOne_eq, const?_mirrored images]

theorem isTrue_mirrored (a : Expr κ) : Smart.isTrue (a.mirrored image) = Smart.isTrue a := by
  rw [Smart.isTrue, Smart.isTrue, const?_mirrored images]

omit images in
theorem smartUnary_eq (op : UnaryOp) (open' : a.const? = none) (short : op = .neg → ∀ b, a ≠ unary .neg b) :
    Smart.unary op a = unary op a := by
  unfold Smart.unary
  split
  · cases open'
  · rename_i b
    exact if_neg fun sign => short sign b rfl
  · rfl

theorem mirrored_smartUnary (op : UnaryOp) (a : Expr κ) :
    (Smart.unary op a).mirrored image = Smart.unary op (a.mirrored image) := by
  have solid {a : Expr κ} (root : a.Solid) (number : a.const? = none) :
      (Smart.unary op a).mirrored image = Smart.unary op (a.mirrored image) := by
    rw [smartUnary_eq op number, smartUnary_eq op ((const?_mirrored images a).trans number), mirrored_unary]
    · rintro x rfl
      exact root
    · rintro - b same
      cases a <;> first | exact root.elim | simp [mirrored] at same
    · rintro - b rfl
      exact root
  cases a with
  | const c => rfl
  | rvar x =>
    exact (mirrored_unary_rvar op x).trans (congrArg (Smart.unary op) (mirrored_rvar x).symm)
  | unary op' b =>
    by_cases signs : op = .neg ∧ op' = .neg
    · obtain ⟨rfl, rfl⟩ := signs
      have cancelled (b : Expr κ) : Smart.unary .neg (unary .neg b) = b := rfl
      rcases mirrored_unary_cases images .neg b with same | ⟨-, x, rfl, negated, same⟩
      · rw [cancelled, same, cancelled]
      · rw [cancelled, same, mirrored_rvar, negated]
        rfl
    · rw [smartUnary_eq op rfl, smartUnary_eq op (const?_mirrored images _), mirrored_unary]
      · exact fun x same => by cases same
      · rintro rfl c same
        rcases mirrored_unary_cases images op' b with plain | ⟨rfl, -⟩
        · exact signs ⟨rfl, (unary.inj (plain.symm.trans same)).1⟩
        · exact signs ⟨rfl, rfl⟩
      · rintro rfl c same
        exact signs ⟨rfl, (unary.inj same).1⟩
  | _ => exact solid trivial rfl

theorem mirrored_binary (op : BinaryOp) (a b : Expr κ) :
    (Smart.binary op a b).mirrored image = Smart.binary op (a.mirrored image) (b.mirrored image) := by
  have facts := And.intro (const?_mirrored images) (And.intro (isZero_mirrored images)
    (And.intro (isOne_mirrored images) (isMinusOne_mirrored images)))
  have neg (a : Expr κ) : (Smart.neg a).mirrored image = Smart.neg (a.mirrored image) :=
    mirrored_smartUnary images .neg a
  cases op with
  | add =>
    change (Smart.add a b).mirrored image = Smart.add _ _
    unfold Smart.add
    simp only [facts]
    repeat' split
    all_goals rfl
  | sub =>
    change (Smart.sub a b).mirrored image = Smart.sub _ _
    unfold Smart.sub
    simp only [facts]
    repeat' split
    all_goals first | rfl | exact neg _
  | mul =>
    change (Smart.mul a b).mirrored image = Smart.mul _ _
    unfold Smart.mul
    simp only [facts]
    repeat' split
    all_goals first | rfl | exact neg _
  | div =>
    change (Smart.div a b).mirrored image = Smart.div _ _
    unfold Smart.div Smart.divOpen
    simp only [facts]
    repeat' split
    all_goals rfl
  | pow =>
    change (Smart.pow a b).mirrored image = Smart.pow _ _
    unfold Smart.pow
    simp only [facts]
    repeat' split
    all_goals rfl
  | min =>
    change (Smart.foldOnly .min a b).mirrored image = Smart.foldOnly .min _ _
    unfold Smart.foldOnly
    simp only [facts]
    split <;> rfl
  | max =>
    change (Smart.foldOnly .max a b).mirrored image = Smart.foldOnly .max _ _
    unfold Smart.foldOnly
    simp only [facts]
    split <;> rfl

theorem mirrored_compare (op : Comparison) (a b : Expr κ) :
    (Smart.compare op a b).mirrored image = Smart.compare op (a.mirrored image) (b.mirrored image) := by
  unfold Smart.compare
  rw [const?_mirrored images, const?_mirrored images]
  split <;> rfl

theorem mirrored_and (a b : Expr κ) :
    (Smart.and a b).mirrored image = Smart.and (a.mirrored image) (b.mirrored image) := by
  unfold Smart.and
  simp only [isZero_mirrored images, isTrue_mirrored images]
  repeat' split
  all_goals rfl

theorem mirrored_or (a b : Expr κ) :
    (Smart.or a b).mirrored image = Smart.or (a.mirrored image) (b.mirrored image) := by
  unfold Smart.or
  simp only [isZero_mirrored images, isTrue_mirrored images]
  repeat' split
  all_goals rfl

theorem mirrored_not (a : Expr κ) : (Smart.not a).mirrored image = Smart.not (a.mirrored image) := by
  unfold Smart.not
  rw [const?_mirrored images]
  split <;> rfl

theorem mirrored_select [ReflexiveIntegers κ] (c : Expr κ) (ha : a.ShortSigns) (hb : b.ShortSigns) :
    (Smart.select c a b).mirrored image = Smart.select (c.mirrored image) (a.mirrored image) (b.mirrored image) := by
  unfold Smart.select
  rw [const?_mirrored images, same_mirrored images ha hb]
  repeat' split
  all_goals rfl

/-- Mirroring a simplified expression simplifies the mirrored one. -/
theorem simplify_bind_eq [ReflexiveIntegers κ] {τ : Name → Option (Expr κ)}
    (given : ∀ x, ((τ x).getD (rvar x)).simplify = image x) (e : Expr κ) :
    (e.bind (fun _ => none) τ).simplify = e.simplify.mirrored image := by
  induction e with
  | const c | var x | param p => rfl
  | rvar x => exact (given x).trans (mirrored_rvar x).symm
  | call f args ih | load f args ih =>
    simp only [Expr.bind, simplify, mirrored, bindList_eq_map, simplifyList_eq_map, mirroredList_eq_map, List.map_map]
    exact congrArg _ (List.map_congr_left ih)
  | unary op a ih => exact (congrArg (Smart.unary op) ih).trans (mirrored_smartUnary images op _).symm
  | binary op a b iha ihb =>
    exact (congrArg₂ (Smart.binary op) iha ihb).trans (mirrored_binary images op _ _).symm
  | compare op a b iha ihb =>
    exact (congrArg₂ (Smart.compare op) iha ihb).trans (mirrored_compare images op _ _).symm
  | and a b iha ihb => exact (congrArg₂ Smart.and iha ihb).trans (mirrored_and images _ _).symm
  | or a b iha ihb => exact (congrArg₂ Smart.or iha ihb).trans (mirrored_or images _ _).symm
  | not a ih => exact (congrArg Smart.not ih).trans (mirrored_not images _).symm
  | select c t f ihc iht ihf =>
    change Smart.select _ _ _ = (Smart.select _ _ _).mirrored image
    rw [ihc, iht, ihf, mirrored_select images _ (shortSigns_simplify t) (shortSigns_simplify f)]

theorem Fits.mirrored {V : Name → Prop} {R : Target → Nat → Prop} (h : e.Fits V R) : (e.mirrored image).Fits V R := by
  induction e with
  | const _ | var _ | param _ => exact h
  | rvar x =>
    rw [mirrored_rvar]
    obtain same | same | ⟨k, -, same⟩ := images x <;> rw [same] <;> simp [ofInt]
  | call f args ih =>
    rw [fits_call] at h
    rw [Expr.mirrored, mirroredList_eq_map, fits_call, List.length_map]
    exact ⟨h.1, List.forall_mem_map.mpr fun a mem => ih a mem (h.2 a mem)⟩
  | load b args ih =>
    rw [fits_load] at h
    rw [Expr.mirrored, mirroredList_eq_map, fits_load, List.length_map]
    exact ⟨h.1, List.forall_mem_map.mpr fun a mem => ih a mem (h.2 a mem)⟩
  | unary op a ih =>
    rcases mirrored_unary_cases images op a with same | ⟨-, x, -, -, same⟩ <;> rw [same]
    · exact fits_unary.mpr (ih (fits_unary.mp h))
    · exact fits_rvar x
  | not a ih => exact fits_not.mpr (ih (fits_not.mp h))
  | binary op a b iha ihb => exact fits_binary.mpr ((fits_binary.mp h).imp iha ihb)
  | compare op a b iha ihb => exact fits_compare.mpr ((fits_compare.mp h).imp iha ihb)
  | and a b iha ihb => exact fits_and.mpr ((fits_and.mp h).imp iha ihb)
  | or a b iha ihb => exact fits_or.mpr ((fits_or.mp h).imp iha ihb)
  | select c t f ihc iht ihf => exact fits_select.mpr ((fits_select.mp h).imp ihc (And.imp iht ihf))

end Images

end Expr

/-! ### Positions of a scan -/

theorem Coord.eq_pure {c : Coord} {x : Name} (own : c.pure? = some x) : c = pure x := by
  cases c <;> cases own
  rfl

namespace Sweep

variable [Extended κ] {rdom : ReductionDomain} {e : Expr κ} {c : Coord} {V : Name → Prop} {R : Target → Nat → Prop}

/-- What a reduction variable becomes when the domain is run through backwards. -/
def flip (rdom : ReductionDomain) (x : Name) : Expr κ := (((flipped rdom).get? x).getD (.rvar x)).simplify

theorem image_flip (rdom : ReductionDomain) (x : Name) : Expr.Image x (flip rdom x : Expr κ) := by
  unfold flip
  cases found : (flipped rdom : Table Name (Expr κ)).get? x with
  | none => exact Or.inl rfl
  | some e =>
    rw [flipped, Table.get?_ofList] at found
    obtain ⟨entry, first, rfl⟩ := Option.map_eq_some_iff.mp found
    have key : entry.1 = x := by simpa using List.find?_some first
    obtain ⟨⟨y, i⟩, -, rfl⟩ := List.mem_map.mp (List.mem_reverse.mp (List.mem_of_find?_eq_some first))
    obtain rfl : y = x := key
    change Expr.Image y (Smart.sub (Expr.ofInt i.endSum) (.rvar y)).simplify
    have sub : Smart.sub (Expr.ofInt i.endSum) (.rvar y : Expr κ) =
        if Scalar.isZero (Scalar.ofInt i.endSum : κ) then .unary .neg (.rvar y)
        else .binary .sub (Expr.ofInt i.endSum) (.rvar y) := rfl
    rw [sub]
    by_cases zero : Scalar.isZero (Scalar.ofInt i.endSum : κ) = true
    · rw [if_pos zero]
      exact Or.inr (Or.inl rfl)
    · rw [if_neg zero]
      exact Or.inr (Or.inr ⟨i.endSum, Bool.eq_false_iff.mpr zero, sub.trans (if_neg zero)⟩)

variable [ReflexiveIntegers κ]

theorem reflect_eq (rdom : ReductionDomain) (e : Expr κ) : reflect rdom e = e.simplify.mirrored (flip rdom) :=
  Expr.simplify_bind_eq (image_flip rdom) (fun _ => rfl) e

theorem fits_reflect (h : e.Fits V R) : (reflect rdom e).Fits V R := by
  rw [reflect_eq]
  exact h.simplify.mirrored (image_flip rdom)

theorem reflect_pure {x : Name} (coordinate : Coord.ofExpr? e = some (.pure x)) : reflect rdom e = .var x := by
  rw [reflect_eq, (Coord.spelledBy_of_ofSimplified? coordinate).eq_var rfl]
  rfl

theorem reflect_closed (coordinate : Coord.ofExpr? e = some c) (other : c.pure? = none) (h : e.Fits V R) :
    (reflect rdom e).Fits (fun _ => False) R := by
  rw [reflect_eq]
  refine Expr.Fits.mirrored (image_flip rdom) (Expr.fits_iff.mpr ⟨fun x mem => ?_, fun r => h.simplify.reads⟩)
  exact (Coord.spelledBy_of_ofSimplified? coordinate).not_mem_var other x (Expr.mem_freeVars.mp mem)

section Scans

variable {f : Func κ} {d : Definition κ} {written : List Coord} {read : List (Expr κ)} {sight : Seen}

omit [ReflexiveIntegers κ] in
/-- Where a read is compared with the written position, both have the same pure variables at the same places. -/
theorem aligned_of_seen? (once : d.distinctPositions? = some written) (seen : seen? written rdom read = some sight)
    (length : read.length = d.lhs.length) {i : Nat} {a b : Expr κ} (ha : d.lhs[i]? = some a) (hb : read[i]? = some b) :
    ∃ c c', Coord.ofExpr? a = some c ∧ Coord.ofExpr? b = some c' ∧ c'.pure? = c.pure? := by
  have entry {es : List (Expr κ)} {cs : List Coord} (listed : Coord.Listed es cs) {e : Expr κ} (at' : es[i]? = some e) :
      ∃ c, cs[i]? = some c ∧ Coord.ofExpr? e = some c := by
    obtain ⟨less, rfl⟩ := List.getElem?_eq_some_iff.mp at'
    have inside : i < cs.length := listed.length_eq ▸ less
    exact ⟨cs[i], List.getElem?_eq_getElem inside, (List.forall₂_iff_get.mp listed).2 i less inside⟩
  have lhs := (Definition.distinctPositions?_eq_some once).1
  obtain ⟨relations, compared, -⟩ := Option.bind_eq_some_iff.mp seen
  obtain ⟨cs, listed, compared⟩ := compared_of_mapM (length.trans lhs.length_eq) compared
  obtain ⟨c, own, found⟩ := entry lhs ha
  obtain ⟨c', own', found'⟩ := entry listed hb
  have same := congrArg (·[i]?) compared.map_pure?
  simp only [List.getElem?_map, own, own', Option.map_some] at same
  exact ⟨c, c', found, found', (Option.some.inj same).symm⟩

variable (accepted : f.Accepts d.lhs) (once : d.distinctPositions? = some written)
  (seen : seen? written rdom read = some sight) (length : read.length = d.lhs.length)
include accepted once seen length

theorem accepts_reflect (fits : ∀ a ∈ read, a.Fits V R) : f.Accepts (read.map (reflect rdom)) := by
  refine ⟨(List.length_map _).trans (length.trans accepted.length), fun {i e x} at' free => ?_⟩
  rw [List.getElem?_map] at at'
  obtain ⟨b, hb, rfl⟩ := Option.map_eq_some_iff.mp at'
  obtain ⟨less, -⟩ := List.getElem?_eq_some_iff.mp hb
  have ha := List.getElem?_eq_getElem (length ▸ less)
  obtain ⟨c, c', found, found', same⟩ := aligned_of_seen? once seen length ha hb
  cases own : c'.pure? with
  | none => exact ((reflect_closed found' own (fits b (List.mem_of_getElem? hb))).freeVars free).elim
  | some y =>
    rw [reflect_pure (Coord.eq_pure own ▸ found')] at free ⊢
    obtain rfl := Expr.var.inj (List.mem_singleton.mp (Expr.mem_freeVars.mp free))
    -- the written coordinate is that variable too, so that its dimension is the accepted one
    have spelled := (Coord.spelledBy_of_ofSimplified? found).eq_var (same ▸ own)
    have old : d.lhs[i].Fits (· ∈ d.lhs[i].freeVars) fun _ _ => True :=
      Expr.fits_iff.mpr ⟨fun _ free => free, fun _ _ => trivial⟩
    exact ⟨rfl, (accepted.placed ha (old.simplify.freeVars (spelled ▸ free))).2⟩

theorem binds_reflect {d' : Definition κ} (position : d'.lhs = read.map (reflect rdom)) {x : Name} (binds : d.Binds x) :
    d'.Binds x := by
  obtain ⟨a, mem, free⟩ := binds
  obtain ⟨i, ha⟩ := List.mem_iff_getElem?.mp mem
  obtain rfl := accepted.eq_var mem free
  obtain ⟨less, -⟩ := List.getElem?_eq_some_iff.mp ha
  have hb := List.getElem?_eq_getElem (length.symm ▸ less)
  obtain ⟨c, c', found, found', same⟩ := aligned_of_seen? once seen length ha hb
  obtain rfl : .pure x = c := Option.some.inj found
  refine ⟨.var x, ?_, free⟩
  rw [position, ← reflect_pure (Coord.eq_pure same ▸ found')]
  exact List.mem_map_of_mem (List.mem_of_getElem? hb)

end Scans

end Sweep

end ArrayDiff
