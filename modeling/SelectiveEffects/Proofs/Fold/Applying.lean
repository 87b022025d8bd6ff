import SelectiveEffects.Proofs.Fold.Homomorphism
import SelectiveEffects.Proofs.Laws.Tasks
import SelectiveEffects.Proofs.Laws.Validations
import SelectiveEffects.Tree.Language

/-! An application of trees is folded as a selection: it comes to the derived application of the folds,
which need not be the context's own. -/

namespace SelectiveEffects

open Scenario

namespace Action

variable {σ α β : Type}

/-- Whatever the action returns has a property. -/
def Returns (a : Action σ α) (V : α → Prop) : Prop :=
  ∀ w x w', a w = .ok x w' → V x

variable {a : Action σ α} {V : α → Prop}

theorem Returns.bind_congr (ha : a.Returns V) {f g : α → Action σ β} (h : ∀ x, V x → f x = g x) :
    a >>= f = a >>= g := by
  funext w
  rw [bind_apply, bind_apply]
  cases hx : a w with
  | ok x w' => exact congrFun (h x (ha w x w' hx)) w'
  | error e w' => rfl

theorem Returns.bind {W : β → Prop} {f : α → Action σ β} (ha : a.Returns V)
    (h : ∀ x, V x → (f x).Returns W) : (a >>= f).Returns W := by
  intro w y w' hy
  obtain ⟨x, w₁, hx, hy⟩ := bind_eq_ok_iff.mp hy
  exact h x (ha w x w₁ hx) w₁ y w' hy

theorem returns_ofExcept {r : Except Fault α} (h : ∀ x, r = .ok x → V x) :
    (ofExcept r : Action σ α).Returns V := by
  intro w x w' hx
  exact h x (ofExcept_eq_ok_iff.mp hx).1

theorem returns_throw (e : Fault) : (throw e : Action σ α).Returns V :=
  fun _ _ _ h => nomatch h

end Action

/-- The laws by which an application of trees is simplified, failures included, for values with a
property that the operations keep: mapping is functorial, and an application to a known value or of
a known function maps. -/
structure Selective.Applicable {P F : Type} [Primitives P] (S : Selective (Except Fault) P F)
    (V : F → Prop) : Prop where
  unit : ∀ v, ∃ x, S.unit v = .ok x ∧ V x
  map : ∀ {f x y}, V x → S.map f x = .ok y → V y
  handle : ∀ {x y z}, V x → V y → S.handle x y = .ok z → V z
  exists_map : ∀ {f x}, Fun.Total f → V x → ∃ y, S.map f x = .ok y
  map_identity : ∀ {x}, V x → S.map .ok x = .ok x
  map_map : ∀ {f g x}, V x → (S.map g x >>= S.map f) = S.map (Fun.comp f g) x
  map_unit : ∀ {f : Fun P} {v u x}, S.unit v = .ok x → f v = .ok u → S.map f x = S.unit u
  ap_unit : ∀ {a v x}, V a → S.unit v = .ok x → S.ap a x = S.map (fun g => g.call v) a
  unit_ap : ∀ {g x b}, V b → S.unit g = .ok x → S.ap x b = S.map g.call b

namespace Tree

variable {P G : Type} [Primitives P]

omit [Primitives P] in
theorem collapses_left (a : Val P) (y : Tree P G) : collapses (pure (.left a)) y = true := by
  cases y <;> rfl

/-- An application to a known value maps the function, that of a known function maps the argument,
and any other is a selection whose disjunction is tagged. -/
theorem ap_known_cases {f x t : Tree P G} (h : f.ap x = .ok t) :
    (∃ v, x = pure v ∧ f.fmap (fun g => g.call v) = .ok t) ∨
    (∃ g, f = pure g ∧ x.fmap g.call = .ok t) ∨
    ∃ d y, f.fmap Val.toLeft.call = .ok d ∧ x.fmap Fun.applying = .ok y ∧
      t = .selection d y none .always := by
  obtain ⟨d, y, tree, hd, hy, htree, rfl⟩ := ap_cases h
  obtain ⟨g, rfl, hmap⟩ | ⟨a, rfl, hmap⟩ | ⟨hcollapses, rfl⟩ := handle_cases htree
  · left
    rw [collapses, if_pos rfl]
    cases x with
    | pure v =>
      cases hy
      have happly : Fun.comp (Val.either (.applyTo v) .identity).call Val.toLeft.call =
          fun g => g.call v := funext fun g => by simp [Fun.comp]
      exact ⟨v, rfl, happly ▸ fmap_fmap hd hmap⟩
    | _ => cases hy
  · right; left
    rw [collapses_left, if_pos rfl]
    cases f with
    | pure g =>
      obtain ⟨_, hleft, htagged⟩ := exists_of_map_eq_ok hd
      rw [Val.call_toLeft, Except.ok.injEq] at hleft
      subst hleft
      cases htagged
      have happly : Fun.comp (Val.applyTo a).call Fun.applying = a.call :=
        funext fun v => by simp [Fun.comp, Fun.applying]
      exact ⟨a, rfl, happly ▸ fmap_fmap hy hmap⟩
    | _ => cases hd
  · right; right
    rw [hcollapses]
    exact ⟨d, y, hd, hy, rfl⟩

end Tree

namespace Folding

variable {σ P G D F : Type} [Primitives P]
variable {C : Context (Except Fault) P D F} {V : F → Prop} (hC : C.Applicable V)
variable {interpret : Effect P → Action σ F} (hinterpret : ∀ e, (interpret e).Returns V)
variable {gen : G → Action σ (Tree P G)} {suspend : Deferral P G → D} {unroll : Option Nat}
variable {f x t : Tree P G}

include hC in
theorem map_after (k : Post P) (f : Fun P) {a : F} (ha : V a) :
    (Action.ofExcept (C.map (k.after f).apply a) : Action σ F) =
      Action.ofExcept (C.map k.apply a) >>= fun b => Action.ofExcept (C.map f b) := by
  rw [← Action.ofExcept_bind, hC.map_map ha]
  rfl

include hC hinterpret

/-- Without deferred nodes, what a fold returns has the property. -/
theorem returns_fold (ht : t.LoopFree) : ((into C interpret gen suspend).fold unroll t).Returns V := by
  rw [fold_eq]
  induction t with
  | pure v =>
    obtain ⟨x, hunit, hx⟩ := hC.unit v
    refine Action.returns_ofExcept fun y hy => ?_
    cases hunit.symm.trans hy
    exact hx
  | lifted e k =>
    exact (hinterpret e).bind fun a ha => Action.returns_ofExcept fun x => hC.map ha
  | selection d h k route ihd ihh =>
    obtain ⟨hd, hh⟩ := Tree.loopFree_selection.mp ht
    refine (ihd hd).bind fun a ha => (ihh hh).bind fun b hb => ?_
    exact Action.Returns.bind (Action.returns_ofExcept fun c => hC.handle ha hb) fun c hc =>
      Action.returns_ofExcept fun z => hC.map hc
  | deferred g k => exact absurd trivial ht
  | loop action k => exact absurd trivial ht
  | foreign typeName => exact Action.returns_throw _
  | unknown typeName => exact Action.returns_throw _

theorem fold_fmap {g : Fun P} (hx : x.LoopFree) (h : x.fmap g = .ok t) :
    (into C interpret gen suspend).fold unroll t =
      (into C interpret gen suspend).fold unroll x >>= fun a => Action.ofExcept (C.map g a) := by
  cases x with
  | pure v =>
    obtain ⟨u, hu, rfl⟩ := exists_of_map_eq_ok h
    obtain ⟨a, ha, -⟩ := hC.unit v
    simp only [fold_pure, into, Context.inAction, ha, hC.map_unit ha hu, Action.ofExcept_ok,
      pure_bind]
  | lifted e k =>
    cases h
    simp only [fold_eq, foldWith, bind_assoc]
    exact (hinterpret e).bind_congr fun a ha => map_after hC k g ha
  | selection d h k route =>
    cases h
    obtain ⟨hd, hh⟩ := Tree.loopFree_selection.mp hx
    simp only [fold_selection, bind_assoc]
    refine (returns_fold hC hinterpret hd).bind_congr fun a ha => ?_
    refine (returns_fold hC hinterpret hh).bind_congr fun b hb => ?_
    exact Action.Returns.bind_congr (Action.returns_ofExcept fun c => hC.handle ha hb)
      fun c hc => map_after hC k g hc
  | deferred g k => exact absurd trivial hx
  | loop action k => exact absurd trivial hx
  | foreign typeName => cases h
  | unknown typeName => cases h

/-- Whether an application of trees was simplified or is a selection, it is folded to the derived
application of the folds, made in order. -/
theorem fold_ap (hf : f.LoopFree) (hx : x.LoopFree) (h : f.ap x = .ok t) :
    (into C interpret gen suspend).fold unroll t = (do
      let a ← (into C interpret gen suspend).fold unroll f
      let b ← (into C interpret gen suspend).fold unroll x
      Action.ofExcept (C.toSelective.ap a b)) := by
  obtain ⟨v, rfl, hmap⟩ | ⟨g, rfl, hmap⟩ | ⟨d, y, hd, hy, rfl⟩ := Tree.ap_known_cases h
  · obtain ⟨b, hb, -⟩ := hC.unit v
    rw [fold_fmap hC hinterpret hf hmap]
    refine (returns_fold hC hinterpret hf).bind_congr fun a ha => ?_
    simp only [fold_pure, into, Context.inAction, hb, Action.ofExcept_ok, pure_bind,
      hC.ap_unit ha hb]
  · obtain ⟨a, ha, -⟩ := hC.unit g
    rw [fold_fmap hC hinterpret hx hmap]
    simp only [fold_pure, into, Context.inAction, ha, Action.ofExcept_ok, pure_bind]
    exact (returns_fold hC hinterpret hx).bind_congr fun b hb =>
      congrArg Action.ofExcept (hC.unit_ap hb ha).symm
  · rw [fold_selection, fold_fmap hC hinterpret hf hd, fold_fmap hC hinterpret hx hy]
    simp only [bind_assoc]
    refine (returns_fold hC hinterpret hf).bind_congr fun a ha => ?_
    obtain ⟨l, hl⟩ := hC.exists_map (fun v => ⟨_, Val.call_toLeft v⟩) ha
    rw [hl, Action.ofExcept_ok, pure_bind]
    refine (returns_fold hC hinterpret hx).bind_congr fun b hb => ?_
    obtain ⟨r, hr⟩ := hC.exists_map (f := Fun.applying) (fun v => ⟨_, rfl⟩) hb
    have hap : C.toSelective.ap a b = C.handle l r := by
      rw [Selective.ap, hl, ok_bind, hr, ok_bind]
    rw [hr, Action.ofExcept_ok, pure_bind, hap]
    -- The node of a selection maps the identity.
    refine Eq.trans ?_ (bind_pure _)
    exact Action.Returns.bind_congr
      (Action.returns_ofExcept fun c => hC.handle (hC.map ha hl) (hC.map hb hr))
      fun c hc => congrArg Action.ofExcept (hC.map_identity hc)

end Folding

namespace Context

variable {P σ D : Type} [Primitives P]

theorem applicable_everyLabel :
    (everyLabel : Context (Except Fault) P D (List String)).Applicable fun _ => True where
  unit _ := ⟨[], rfl, trivial⟩
  map _ _ := trivial
  handle _ _ _ := trivial
  exists_map _ _ := ⟨_, rfl⟩
  map_identity _ := rfl
  map_map _ := rfl
  map_unit hunit _ := by
    cases hunit
    rfl
  ap_unit {a _ _} _ hunit := by
    cases hunit
    exact congrArg Except.ok (List.append_nil a)
  unit_ap _ hunit := by
    cases hunit
    rfl

theorem applicable_task (again : Task P σ D → D) :
    (task again).Applicable fun _ => True where
  unit _ := ⟨_, rfl, trivial⟩
  map _ _ := trivial
  handle _ _ _ := trivial
  exists_map _ _ := ⟨_, rfl⟩
  map_identity {t} _ := congrArg Except.ok t.bind_done
  map_map {f g t} _ := by
    refine congrArg Except.ok ((t.bind_assoc _ _).trans (congrArg t.bind (funext fun v => ?_)))
    rw [Fun.comp]
    cases g v <;> rfl
  map_unit hunit hf := by
    cases hunit
    exact congrArg (fun r => Except.ok (Task.done r)) hf
  ap_unit {t v _} _ hunit := by
    cases hunit
    refine congrArg Except.ok ((t.bind_assoc _ _).trans (congrArg t.bind (funext fun g => ?_)))
    rw [Val.call_toLeft]
    exact congrArg Task.done (Val.call_applyTo v g)
  unit_ap {g _ t} _ hunit := by
    cases hunit
    have htagged : (Task.done (.ok g) : Task P σ D).map Val.toLeft.call = .done (.ok (.left g)) :=
      congrArg Task.done (Val.call_toLeft g)
    have happlied : (t.map Fun.applying).bind (fun f => .done (f.call g)) = t.map g.call :=
      (t.bind_assoc _ _).trans (congrArg t.bind (funext fun v =>
        congrArg Task.done (Val.call_applyTo v g)))
    change Except.ok (Task.handle (Task.map _ (.done (.ok g))) (t.map Fun.applying)) = _
    rw [htagged]
    exact congrArg Except.ok happlied

end Context

namespace Validation

variable {P D : Type}

/-- A failure with any errors, or a success with any value. -/
abbrev Verdict : Val P → Prop :=
  Holds fun _ => True

theorem Verdict.map {f : Fun P} {x y : Val P} (hx : Verdict x) (h : Validation.map f x = .ok y) :
    Verdict y := by
  cases hx with
  | failure es =>
    cases h
    exact .failure es
  | success v =>
    rw [map_success] at h
    obtain ⟨u, -, rfl⟩ := exists_of_map_eq_ok h
    exact .success u trivial

variable [Primitives P]

theorem Verdict.handle {x y z : Val P} (hx : Verdict x) (hy : Verdict y)
    (h : Validation.handle x y = .ok z) : Verdict z := by
  cases hx with
  | failure es =>
    cases h
    exact .failure es
  | success v =>
    have hcases : (∃ a, v = .left a) ∨
        Validation.handle (.success v) y = v.payload?.map .success := by
      cases v with
      | left a => exact .inl ⟨a, rfl⟩
      | _ => exact .inr rfl
    obtain ⟨a, rfl⟩ | hpayload := hcases
    · exact hy.map h
    · rw [hpayload] at h
      obtain ⟨u, -, rfl⟩ := exists_of_map_eq_ok h
      exact .success u trivial

theorem applicable : (Context.validation : Context (Except Fault) P D (Val P)).Applicable Verdict where
  unit v := ⟨.success v, rfl, .success v trivial⟩
  map := Verdict.map
  handle := Verdict.handle
  exists_map hf _ := exists_map hf _
  map_identity hx := by
    cases hx with
    | failure es => rfl
    | success v => rfl
  map_map {f g x} hx := by
    cases hx with
    | failure es => rfl
    | success v =>
      rw [validation_map, validation_map, map_success, map_success]
      cases hg : g v with
      | ok u => simp [hg, Fun.comp]
      | error e => simp [hg, Fun.comp]
  map_unit {f v u x} hunit hf := by
    cases hunit
    rw [validation_map, map_success, hf]
    rfl
  ap_unit {a v x} ha hunit := by
    cases hunit
    cases ha with
    | failure es => simp [Selective.ap, Fun.applying]
    | success g => simp [Selective.ap, Fun.applying]
  unit_ap {g x b} hb hunit := by
    cases hunit
    cases hb with
    | failure es => simp [Selective.ap]
    | success v => simp [Selective.ap, Fun.applying]

/-- Application, except that an argument is not heard when the function has failed already. -/
def apUnheard (f x : Val P) : Except Fault (Val P) :=
  match f, x with
  | .failure es, .failure _ => .ok (.failure es)
  | f, x => ap f x

/-- The derived application handles, and a failed disjunction offers no choice. -/
theorem selective_ap {f x : Val P} (hf : Verdict f) (hx : Verdict x) :
    (Context.validation (D := D)).toSelective.ap f x = apUnheard f x := by
  obtain es | ⟨g, -⟩ := hf
  · obtain fs | ⟨v, -⟩ := hx <;> simp [Selective.ap, Fun.applying, apUnheard, ap]
  · obtain fs | ⟨v, -⟩ := hx
    · simp [Selective.ap, apUnheard, ap]
    · simp [Selective.ap, Fun.applying, apUnheard, ap, Val.payload?]
      cases g.call v <;> rfl

end Validation

namespace Folding

variable {σ P G D F : Type} [Primitives P]

/-- A tree is folded to what an operation makes of the folds of two others, made in order. -/
def Combines (I : Folding σ P G D F) (unroll : Option Nat) (op : F → F → Except Fault F)
    (f x t : Tree P G) : Prop :=
  ∀ a b, I.FoldsAs unroll f a → I.FoldsAs unroll x b → I.FoldsAs unroll t (do
    let u ← a
    let v ← b
    Action.ofExcept (op u v))

theorem combines_of_applicable {C : Context (Except Fault) P D F} {V : F → Prop}
    (hC : C.Applicable V) {op : F → F → Except Fault F}
    (hop : ∀ u v, V u → V v → C.toSelective.ap u v = op u v) {interpret : Effect P → Action σ F}
    (hinterpret : ∀ e, (interpret e).Returns V) (gen : G → Action σ (Tree P G))
    (suspend : Deferral P G → D) (unroll : Option Nat) {f x t : Tree P G} (hf : f.LoopFree)
    (hx : x.LoopFree) (h : f.ap x = .ok t) :
    (into C interpret gen suspend).Combines unroll op f x t := by
  intro a b ha hb
  rw [foldsAs_iff] at ha hb ⊢
  subst ha hb
  rw [fold_ap hC hinterpret hf hx h]
  refine (returns_fold hC hinterpret hf).bind_congr fun u hu => ?_
  refine (returns_fold hC hinterpret hx).bind_congr fun v hv => ?_
  rw [hop u v hu hv]

/-- An application of trees without deferred nodes is folded to the application of the folds where
labels are collected and where tasks are made. Where errors are collected, it is so unless both
folds fail: then the errors of the function are reported alone, as a tree has no node for an
application and its selection has no choice to act on. -/
theorem application_combines {f x t : Tree P G} (hf : f.LoopFree) (hx : x.LoopFree)
    (h : f.ap x = .ok t) (gen : G → Action σ (Tree P G)) (suspend : Deferral P G → D)
    (unroll : Option Nat) :
    (∀ interpret : Effect P → Action σ (List String),
      (into .everyLabel interpret gen suspend).Combines unroll
        (Context.everyLabel (P := P) (D := D)).ap f x t) ∧
    (∀ (again : Task P σ D → D) (interpret : Effect P → Action σ (Task P σ D)),
      (into (Context.task again).toContext interpret gen suspend).Combines unroll
        (Context.task again).ap f x t) ∧
    ∀ interpret : Effect P → Action σ (Val P), (∀ e, (interpret e).Returns Validation.Verdict) →
      (into .validation interpret gen suspend).Combines unroll Validation.apUnheard f x t := by
  refine ⟨fun interpret => ?_, fun again interpret => ?_, fun interpret hinterpret => ?_⟩
  · exact combines_of_applicable Context.applicable_everyLabel (fun _ _ _ _ => rfl)
      (fun _ _ _ _ _ => trivial) gen suspend unroll hf hx h
  · exact combines_of_applicable (Context.applicable_task again) (fun _ _ _ _ => rfl)
      (fun _ _ _ _ _ => trivial) gen suspend unroll hf hx h
  · exact combines_of_applicable Validation.applicable (fun _ _ => Validation.selective_ap)
      hinterpret gen suspend unroll hf hx h

/-- The function fails and the argument does not, which is asked for all the same. -/
theorem application_combines_failure :
    let ask (name : String) : Effect Builtin :=
      { className := name, lineage := [name], fields := [], label := .ok name }
    let gen : Empty → Action Nat (Tree Builtin Empty) := nofun
    let f : Tree Builtin Empty := .lift (ask "F")
    let x : Tree Builtin Empty := .lift (ask "X")
    let t : Tree Builtin Empty := .selection (.lifted (ask "F") (some Val.toLeft.call))
      (.lifted (ask "X") (some Fun.applying)) none .always
    let interpret (e : Effect Builtin) : Action Nat (Val Builtin) := do
      modify (· + 1)
      return if e.className == "F" then .failure [.text "e"] else .success .null
    let I : Folding Nat Builtin Empty (Deferral Builtin Empty) (Val Builtin) :=
      into .validation interpret gen id
    f.LoopFree ∧ x.LoopFree ∧ f.ap x = .ok t ∧ (∀ e, (interpret e).Returns Validation.Verdict) ∧
      I.Combines (some 0) Validation.apUnheard f x t ∧
      I.Yields (some 0) t 0 (.failure [.text "e"]) 2 := by
  intro ask gen f x t interpret I
  have hf : f.LoopFree := fun h => h
  have hx : x.LoopFree := fun h => h
  have ht : f.ap x = .ok t := rfl
  have hinterpret (e : Effect Builtin) : (interpret e).Returns Validation.Verdict := by
    intro w v w' h
    cases h
    split
    · exact .failure _
    · exact .success _ trivial
  obtain ⟨-, -, hvalidation⟩ :=
    application_combines (D := Deferral Builtin Empty) hf hx ht gen id (some 0)
  have hcombines : I.Combines (some 0) Validation.apUnheard f x t :=
    hvalidation interpret hinterpret
  have hfold := foldsAs_iff.mp (hcombines _ _ (foldsAs_iff.mpr rfl) (foldsAs_iff.mpr rfl))
  have hyields : I.Yields (some 0) t 0 (.failure [.text "e"]) 2 :=
    yields_iff.mpr ((congrFun hfold 0).symm.trans rfl)
  exact ⟨hf, hx, ht, hinterpret, hcombines, hyields⟩

/-- Of two effects that fail, a fold reports the errors of the first, where the application of the
two failures has those of both. -/
theorem not_combines_failures :
    let ask (name : String) : Effect Builtin :=
      { className := name, lineage := [name], fields := [], label := .ok name }
    let gen : Empty → Action Unit (Tree Builtin Empty) := nofun
    let f : Tree Builtin Empty := .lift (ask "a")
    let x : Tree Builtin Empty := .lift (ask "b")
    let t : Tree Builtin Empty := .selection (.lifted (ask "a") (some Val.toLeft.call))
      (.lifted (ask "b") (some Fun.applying)) none .always
    let interpret (e : Effect Builtin) : Action Unit (Val Builtin) :=
      return .failure [.text (if e.className == "a" then "e1" else "e2")]
    let I : Folding Unit Builtin Empty (Deferral Builtin Empty) (Val Builtin) :=
      into .validation interpret gen id
    f.LoopFree ∧ x.LoopFree ∧ f.ap x = .ok t ∧
      I.Yields (some 0) t () (.failure [.text "e1"]) () ∧
      ¬ I.Combines (some 0) Validation.ap f x t := by
  intro ask gen f x t interpret I
  have hfold : I.fold (some 0) t () = .ok (.failure [.text "e1"]) () := rfl
  refine ⟨fun h => h, fun h => h, rfl, yields_iff.mpr hfold, fun hcombines => ?_⟩
  have hboth := foldsAs_iff.mp (hcombines _ _ (foldsAs_iff.mpr rfl) (foldsAs_iff.mpr rfl))
  have hap : (I.fold (some 0) f >>= fun u => I.fold (some 0) x >>= fun v =>
      Action.ofExcept (Validation.ap u v)) () = .ok (.failure [.text "e1", .text "e2"]) () := rfl
  cases hap.symm.trans ((congrFun hboth ()).trans hfold)

end Folding

end SelectiveEffects
