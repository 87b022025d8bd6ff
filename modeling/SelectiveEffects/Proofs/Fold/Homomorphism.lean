import SelectiveEffects.Context.Labels
import SelectiveEffects.Proofs.Fold.Recursion
import SelectiveEffects.Scenario.Builtin

/-! Folding carries the operations on trees to those of a context, whenever the context obeys the
laws by which the operations on trees simplify what they build. -/

namespace SelectiveEffects

open Scenario

/-- Two results agree when they succeed with the same value. -/
def Agree {α : Type} (a b : Except Fault α) : Prop :=
  ∀ x, a = .ok x ↔ b = .ok x

namespace Action

variable {σ α β γ : Type}

/-- Two actions agree when they succeed with the same value in the same world. -/
def Agree (a b : Action σ α) : Prop :=
  ∀ w x w', a w = .ok x w' ↔ b w = .ok x w'

theorem Agree.refl (a : Action σ α) : Agree a a :=
  fun _ _ _ => Iff.rfl

theorem Agree.symm {a b : Action σ α} (h : Agree a b) : Agree b a :=
  fun w x w' => (h w x w').symm

theorem Agree.trans {a b c : Action σ α} (hab : Agree a b) (hbc : Agree b c) : Agree a c :=
  fun w x w' => (hab w x w').trans (hbc w x w')

theorem Agree.bind {a b : Action σ α} {f g : α → Action σ β} (h : Agree a b)
    (hf : ∀ x, Agree (f x) (g x)) : Agree (a >>= f) (b >>= g) := by
  intro w y w'
  simp only [bind_eq_ok_iff, h w, hf _ _ y w']

theorem agree_ofExcept_bind {r : Except Fault α} {f : α → Except Fault β} {s : Except Fault β}
    (h : SelectiveEffects.Agree (r >>= f) s) :
    Agree (ofExcept r >>= fun x => ofExcept (f x) : Action σ β) (ofExcept s) := by
  intro w y w'
  simp only [← ofExcept_bind, ofExcept_eq_ok_iff, h y]

/-- What needs no world may come before or after what does. -/
theorem agree_exchange (r : Except Fault α) (b : Action σ β) (f : α → β → Action σ γ) :
    Agree (ofExcept r >>= fun x => b >>= fun y => f x y)
      (b >>= fun y => ofExcept r >>= fun x => f x y) := by
  intro w z w'
  simp only [bind_eq_ok_iff, ofExcept_eq_ok_iff]
  constructor
  · rintro ⟨x, w₁, ⟨hr, rfl⟩, y, w₂, hb, hf⟩
    exact ⟨y, w₂, hb, x, w₂, ⟨hr, rfl⟩, hf⟩
  · rintro ⟨y, w₁, hb, x, w₂, ⟨hr, rfl⟩, hf⟩
    exact ⟨x, w, ⟨hr, rfl⟩, y, w₁, hb, hf⟩

end Action

/-- The laws by which operations on trees simplify: mapping is functorial, a known value is mapped
at once, a known function is mapped and a known left tag applied. -/
structure Selective.Lawful {P F : Type} [Primitives P] (S : Selective (Except Fault) P F) :
    Prop where
  map_identity : ∀ x, S.map .ok x = .ok x
  map_map : ∀ f g x, Agree (S.map g x >>= S.map f) (S.map (Fun.comp f g) x)
  map_unit : ∀ (f : Fun P) v u, f v = .ok u → Agree (S.unit v >>= S.map f) (S.unit u)
  handle_unit : ∀ x g, Agree (S.unit g >>= S.handle x) (S.map (Val.either g .identity).call x)
  left_handle : ∀ a y,
    Agree (S.unit (.left a) >>= fun x => S.handle x y) (S.map (Val.applyTo a).call y)

namespace Context

variable {P D : Type} [Primitives P]

/-- The values themselves, with failure as the only effect. -/
def plain : Context (Except Fault) P D (Val P) :=
  strict "plain"
    { unit := .ok
      map := fun f x => f x
      handle := fun x y =>
        match x with
        | .left a => y.call a
        | .right b => .ok b
        | v => .error (.noMember v.typeName "either") }

theorem lawful_plain : (plain : Context (Except Fault) P D (Val P)).Lawful where
  map_identity _ := rfl
  map_map _ _ _ _ := Iff.rfl
  map_unit f v u h z := by
    change f v = _ ↔ _
    rw [h]
    rfl
  handle_unit x g z := by
    change (plain (D := D)).handle x g = _ ↔ (Val.either g .identity).call x = _
    cases x with
    | left a => simp [plain, strict]
    | right b => simp [plain, strict]
    | _ => simp [plain, strict, Val.call, Val.callWithin, Except.map]
  left_handle a y z := by
    change y.call a = _ ↔ (Val.applyTo a).call y = _
    rw [Val.call_applyTo]

end Context

namespace Folding

variable {σ P G D F : Type} [Primitives P]

theorem fold_withRoute (I : Folding σ P G D F) (unroll : Option Nat) (route : Route)
    (t : Tree P G) : I.fold unroll (t.withRoute route) = I.fold unroll t := by
  cases t with
  | selection d h k _ => simp only [Tree.withRoute, fold_selection]
  | _ => rfl

/-- A mapped deferred node is deferred as the deferred node is, and mapped. A context that refuses
to defer does so. -/
def DefersMapped (C : Context (Except Fault) P D F) (suspend : Deferral P G → D) : Prop :=
  ∀ source (k : Post P) f,
    Agree (C.defer (suspend ⟨source, k⟩) >>= C.map f) (C.defer (suspend ⟨source, k.after f⟩))

section Homomorphism

variable {C : Context (Except Fault) P D F} (hC : C.Lawful) {interpret : Effect P → Action σ F}
  {gen : G → Action σ (Tree P G)} {suspend : Deferral P G → D} {unroll : Option Nat}
  (hdefer : unroll = none → DefersMapped C suspend)

include hC

theorem agree_map_after (k : Post P) (f : Fun P) (a : F) :
    Action.Agree (Action.ofExcept (C.map (k.after f).apply a) : Action σ F)
      (Action.ofExcept (C.map k.apply a) >>= fun b => Action.ofExcept (C.map f b)) :=
  (Action.agree_ofExcept_bind (hC.map_map f k.apply a)).symm

include hdefer

/-- Where the function of a deferred node is applied depends on the budget; the law of composition
puts a function that was mapped after it. -/
theorem agree_deferral_after (source : Source P G) (k : Post P) (f : Fun P) :
    Action.Agree ((into C interpret gen suspend).deferral unroll ⟨source, k.after f⟩)
      ((into C interpret gen suspend).deferral unroll ⟨source, k⟩ >>= fun a =>
        Action.ofExcept (C.map f a)) := by
  match unroll with
  | none => exact (Action.agree_ofExcept_bind (hdefer rfl source k f)).symm
  | some 0 => exact fun w a w' => Iff.rfl
  | some (n + 1) =>
    simp only [deferral, bind_assoc]
    exact (Action.Agree.refl _).bind fun inner => (Action.Agree.refl _).bind fun a =>
      agree_map_after hC k f a

/-- Mapping a tree folds to mapping its fold. -/
theorem agree_fold_fmap {f : Fun P} {x t : Tree P G} (h : x.fmap f = .ok t) :
    Action.Agree ((into C interpret gen suspend).fold unroll t)
      ((into C interpret gen suspend).fold unroll x >>= fun a => Action.ofExcept (C.map f a)) := by
  simp only [fold_eq]
  cases x with
  | pure v =>
    obtain ⟨u, hu, rfl⟩ := exists_of_map_eq_ok h
    exact (Action.agree_ofExcept_bind (hC.map_unit f v u hu)).symm
  | lifted e k =>
    cases h
    simp only [foldWith, bind_assoc]
    exact (Action.Agree.refl _).bind fun a => agree_map_after hC k f a
  | selection d h k route =>
    cases h
    simp only [foldWith, bind_assoc]
    exact (Action.Agree.refl _).bind fun a => (Action.Agree.refl _).bind fun b =>
      (Action.Agree.refl _).bind fun c => agree_map_after hC k f c
  | deferred g k =>
    cases h
    exact agree_deferral_after hC hdefer (.host g) k f
  | loop action k =>
    cases h
    exact agree_deferral_after hC hdefer (.loop action) k f
  | foreign typeName => cases h
  | unknown typeName => cases h

/-- Handling trees folds to handling their folds, also where the trees are simplified. -/
theorem agree_fold_handle {x y t : Tree P G} (h : x.handle y = .ok t) :
    Action.Agree ((into C interpret gen suspend).fold unroll t) (do
      let a ← (into C interpret gen suspend).fold unroll x
      let b ← (into C interpret gen suspend).fold unroll y
      Action.ofExcept (C.handle a b)) := by
  obtain ⟨g, rfl, hmap⟩ | ⟨a, rfl, hmap⟩ | ⟨-, rfl⟩ := Tree.handle_cases h
  · refine (agree_fold_fmap hC hdefer hmap).trans ((Action.Agree.refl _).bind fun a => ?_)
    rw [fold_pure]
    exact (Action.agree_ofExcept_bind (hC.handle_unit a g)).symm
  · refine (agree_fold_fmap hC hdefer hmap).trans ?_
    rw [fold_pure]
    refine Action.Agree.trans ((Action.Agree.refl _).bind fun b => ?_)
      (Action.agree_exchange _ _ _).symm
    exact (Action.agree_ofExcept_bind (hC.left_handle a b)).symm
  · -- The node of a selection maps the identity.
    rw [fold_selection]
    refine (Action.Agree.refl _).bind fun a => (Action.Agree.refl _).bind fun b => ?_
    have hnone : (fun c => Action.ofExcept (C.map (Post.apply none) c)) =
        (pure : F → Action σ F) :=
      funext fun c => congrArg Action.ofExcept (hC.map_identity c)
    simp only [into, Context.inAction, hnone, bind_pure]
    exact Action.Agree.refl _

/-- Selection on trees folds to the derived selection of the context. -/
theorem agree_fold_select {x l r t : Tree P G} (h : x.select l r = .ok t) :
    Action.Agree ((into C interpret gen suspend).fold unroll t) (do
      let a ← (into C interpret gen suspend).fold unroll x
      let b ← (into C interpret gen suspend).fold unroll l
      let c ← (into C interpret gen suspend).fold unroll r
      Action.ofExcept (C.toSelective.select a b c)) := by
  obtain ⟨tagged, viaLeft, inner, outer, htagged, hviaLeft, hinner, houter, ht⟩ :=
    Tree.select_cases h
  have hroute : (into C interpret gen suspend).fold unroll t =
      (into C interpret gen suspend).fold unroll outer := by
    rw [ht]
    split
    · rfl
    · exact fold_withRoute _ _ _ _
  have hfold : Action.Agree ((into C interpret gen suspend).fold unroll inner) (do
      let a ← (into C interpret gen suspend).fold unroll x
      let b ← (into C interpret gen suspend).fold unroll l
      Action.ofExcept (do C.handle (← C.map Fun.retag a) (← C.map Fun.thenRight b))) := by
    refine (agree_fold_handle hC hdefer hinner).trans ?_
    refine ((agree_fold_fmap hC hdefer htagged).bind fun a' =>
      (agree_fold_fmap hC hdefer hviaLeft).bind fun b' => Action.Agree.refl _).trans ?_
    simp only [bind_assoc, Action.ofExcept_bind]
    exact (Action.Agree.refl _).bind fun a => Action.agree_exchange _ _ _
  rw [hroute]
  refine (agree_fold_handle hC hdefer houter).trans ?_
  refine (hfold.bind fun i => Action.Agree.refl _).trans ?_
  simp only [bind_assoc]
  refine (Action.Agree.refl _).bind fun a => (Action.Agree.refl _).bind fun b => ?_
  -- The handler of the outer selection is folded before the inner operations are applied.
  refine (Action.agree_exchange _ _ _).trans ((Action.Agree.refl _).bind fun c => ?_)
  simp only [Selective.select, bind_assoc, Action.ofExcept_bind]
  exact Action.Agree.refl _

end Homomorphism

/-- The fold is a homomorphism of contexts. Whatever shortcuts the operations on trees take, the
fold of what they build has exactly the value that the operation of the context makes of the folds
of the operands, made in order, and leaves the same world. With a bound on expansions the laws of
the context are enough; without one, deferred nodes are left to the context, which must then defer
a mapped node as it maps a deferred one. -/
theorem yields_operations {C : Context (Except Fault) P D F} (hC : C.Lawful)
    (hselect : ∀ x l r, C.select x l r = C.toSelective.select x l r)
    (interpret : Effect P → Action σ F) (gen : G → Action σ (Tree P G))
    (suspend : Deferral P G → D) (unroll : Option Nat)
    (hdefer : unroll = none → DefersMapped C suspend) :
    let I := into C interpret gen suspend
    (∀ (f : Fun P) (x t : Tree P G), x.fmap f = .ok t → ∀ w z w',
      I.Yields unroll t w z w' ↔ ∃ a, I.Yields unroll x w a w' ∧ C.map f a = .ok z) ∧
    (∀ x y t : Tree P G, x.handle y = .ok t → ∀ w z w',
      I.Yields unroll t w z w' ↔ ∃ a w₁ b, I.Yields unroll x w a w₁ ∧ I.Yields unroll y w₁ b w' ∧
        C.handle a b = .ok z) ∧
    ∀ x l r t : Tree P G, x.select l r = .ok t → ∀ w z w',
      I.Yields unroll t w z w' ↔ ∃ a w₁ b w₂ c, I.Yields unroll x w a w₁ ∧
        I.Yields unroll l w₁ b w₂ ∧ I.Yields unroll r w₂ c w' ∧ C.select a b c = .ok z := by
  intro I
  simp only [yields_iff, I]
  refine ⟨fun f x t h w z w' => ?_, fun x y t h w z w' => ?_, fun x l r t h w z w' => ?_⟩
  · rw [agree_fold_fmap hC hdefer h w z w']
    simp only [Action.bind_eq_ok_iff, Action.ofExcept_eq_ok_iff, exists_eq_right_right]
  · rw [agree_fold_handle hC hdefer h w z w']
    simp only [Action.bind_eq_ok_iff, Action.ofExcept_eq_ok_iff, exists_eq_right_right,
      exists_and_left]
  · rw [agree_fold_select hC hdefer h w z w']
    simp only [Action.bind_eq_ok_iff, Action.ofExcept_eq_ok_iff, exists_eq_right_right,
      exists_and_left, hselect]

/-- A known function handles a deferred disjunction, which one expansion makes an effect. -/
theorem yields_operations_deferred :
    let ask : Effect Builtin :=
      { className := "Ask", lineage := ["Ask"], fields := [], label := .ok "Ask" }
    let C : Context (Except Fault) Builtin (Deferral Builtin Unit) (Val Builtin) := .plain
    let interpret : Effect Builtin → Action Nat (Val Builtin) := fun _ => do
      modify (· + 1)
      return .left (.int 7)
    let gen : Unit → Action Nat (Tree Builtin Unit) := fun _ => do
      modify (· + 10)
      return .lift ask
    let I : Folding Nat Builtin Unit (Deferral Builtin Unit) (Val Builtin) := into C interpret gen id
    let x : Tree Builtin Unit := .deferred () none
    let y : Tree Builtin Unit := .pure .toRight
    let t : Tree Builtin Unit := .deferred () (some fun v => (Val.either .toRight .identity).call v)
    C.Lawful ∧ (∀ x l r, C.select x l r = C.toSelective.select x l r) ∧
      (some 1 = none → DefersMapped C (id : Deferral Builtin Unit → Deferral Builtin Unit)) ∧
      x.handle y = .ok t ∧ I.Yields (some 1) t 0 (.right (.int 7)) 11 ∧
      ∃ a w₁ b, I.Yields (some 1) x 0 a w₁ ∧ I.Yields (some 1) y w₁ b 11 ∧
        C.handle a b = .ok (.right (.int 7)) := by
  intro ask C interpret gen I x y t
  have hC : C.Lawful := Context.lawful_plain
  have hselect (x l r : Val Builtin) : C.select x l r = C.toSelective.select x l r := rfl
  have hdefer (h : some 1 = none) :
      DefersMapped C (id : Deferral Builtin Unit → Deferral Builtin Unit) := nomatch h
  have hbuilt : x.handle y = .ok t := rfl
  have hfold : I.fold (some 1) t 0 =
      Action.ofExcept ((Val.either .toRight .identity).call (.left (.int 7))) 11 := rfl
  have hyields : I.Yields (some 1) t 0 (.right (.int 7)) 11 := by
    rw [yields_iff, hfold, Val.call_either_left, Val.call_toRight]
    rfl
  have hhandle := (yields_operations hC hselect interpret gen id (some 1) hdefer).2.1
  exact ⟨hC, hselect, hdefer, hbuilt, hyields, (hhandle x y t hbuilt _ _ _).mp hyields⟩

end Folding

end SelectiveEffects
