import SelectiveEffects.Tree.Evaluation

/-! Direct evaluation of the trees that mapping and handling build, whatever they collapse to. -/

namespace SelectiveEffects

def Val.IsTagged {P : Type} (v : Val P) : Prop :=
  (∃ a, v = .left a) ∨ ∃ b, v = .right b

theorem Val.isTagged_of_mapRight {P : Type} [Primitives P] {f v u : Val P} (hv : v.IsTagged)
    (h : (Val.mapRight f).call v = .ok u) : u.IsTagged := by
  obtain ⟨a, rfl⟩ | ⟨b, rfl⟩ := hv
  · rw [Val.call_mapRight_left] at h
    cases h
    exact .inl ⟨a, rfl⟩
  · rw [Val.call_mapRight_right] at h
    obtain ⟨c, -, rfl⟩ := exists_of_map_eq_ok h
    exact .inr ⟨c, rfl⟩

theorem Val.ne_tag_of_not_isTagged {P : Type} {v : Val P} (hv : ¬ v.IsTagged) :
    (∀ a, v ≠ .left a) ∧ ∀ b, v ≠ .right b :=
  ⟨fun a h => hv (.inl ⟨a, h⟩), fun b h => hv (.inr ⟨b, h⟩)⟩

/-- Goes by the tag of a value, if it has one. -/
def Val.byTag {P α : Type} (onLeft onRight untagged : Val P → α) : Val P → α
  | .left a => onLeft a
  | .right b => onRight b
  | v => untagged v

theorem Val.byTag_untagged {P α : Type} {onLeft onRight untagged : Val P → α} {v : Val P}
    (hv : ¬ v.IsTagged) : v.byTag onLeft onRight untagged = untagged v := by
  cases v with
  | left a => exact absurd (.inl ⟨a, rfl⟩) hv
  | right b => exact absurd (.inr ⟨b, rfl⟩) hv
  | _ => rfl

theorem Val.call_either_untagged {P : Type} [Primitives P] {f g v : Val P} (hv : ¬ v.IsTagged) :
    (Val.either f g).call v = .error (.noMember v.typeName "either") := by
  cases v with
  | left a => exact absurd (.inl ⟨a, rfl⟩) hv
  | right b => exact absurd (.inr ⟨b, rfl⟩) hv
  | _ => simp [call, callWithin, Except.map]

theorem Fun.retag_untagged {P : Type} [Primitives P] {v : Val P} (hv : ¬ v.IsTagged) :
    Fun.retag v = .error (.noMember v.typeName "map") := by
  cases v with
  | left a => exact absurd (.inl ⟨a, rfl⟩) hv
  | right b => exact absurd (.inr ⟨b, rfl⟩) hv
  | _ => simp [retag, Val.call, Val.callWithin, Except.map]

/-- Whatever value comes out is tagged. -/
def Evaluation.Tagged {P σ : Type} (x : Evaluation σ (Val P)) : Prop :=
  ∀ s v s', x s = .ok (some v) s' → v.IsTagged

namespace Evaluation

variable {P σ : Type}

theorem tagged_pure {v : Val P} (hv : v.IsTagged) : (pure v : Evaluation σ (Val P)).Tagged := by
  intro s u s' h
  cases h
  exact hv

theorem tagged_ofExcept {r : Except Fault (Val P)} (h : ∀ v, r = .ok v → v.IsTagged) :
    (ofExcept r : Evaluation σ (Val P)).Tagged := by
  cases r with
  | ok v => exact tagged_pure (h v rfl)
  | error e => exact nofun

/-- From one state, a value is tagged when all that may come next gives tags. -/
theorem isTagged_of_bind {x : Evaluation σ (Val P)} {f : Val P → Evaluation σ (Val P)} {s : σ}
    (hf : ∀ v s', x s = .ok (some v) s' → (f v).Tagged) {u : Val P} {s' : σ}
    (h : (x >>= f) s = .ok (some u) s') : u.IsTagged := by
  obtain ⟨v, s₁, hs, h⟩ := bind_eq_ok_iff.mp h
  exact hf v s₁ hs s₁ u s' h

theorem Tagged.bind {x : Evaluation σ (Val P)} {f : Val P → Evaluation σ (Val P)}
    (hf : ∀ s v s', x s = .ok (some v) s' → (f v).Tagged) : (x >>= f).Tagged :=
  fun s _ _ h => isTagged_of_bind (hf s) h

theorem Tagged.map {x : Evaluation σ (Val P)} (hx : x.Tagged) {f : Fun P}
    (hf : ∀ v u, v.IsTagged → f v = .ok u → u.IsTagged) :
    (x >>= fun v => ofExcept (f v)).Tagged :=
  Tagged.bind fun s v s' hv => tagged_ofExcept fun u => hf v u (hx s v s' hv)

end Evaluation

namespace Tree

variable {P G σ : Type} [Primitives P]

theorem choose_none_left (handler : Evaluation σ (Val P)) (a : Val P) :
    choose handler none (.left a) = handler >>= fun f => Evaluation.ofExcept (f.call a) :=
  bind_congr fun f => congrArg Evaluation.ofExcept (bind_pure (f.call a))

theorem choose_none_right (handler : Evaluation σ (Val P)) (b : Val P) :
    choose handler none (.right b) = Pure.pure b := rfl

theorem choose_after (handler : Evaluation σ (Val P)) (k : Post P) (f : Fun P) (v : Val P) :
    choose handler (k.after f) v =
      choose handler k v >>= fun u => Evaluation.ofExcept (f u) := by
  cases v with
  | left a =>
    simp only [choose, bind_assoc, ← Evaluation.ofExcept_bind]
    rfl
  | right b => exact Evaluation.ofExcept_bind (k.apply b) f
  | _ => rfl

section Mapping

omit [Primitives P]

theorem post_after_comp (f g : Fun P) (k : Post P) : k.after (f.comp g) = (k.after g).after f :=
  congrArg some (funext fun v => (bind_assoc (k.apply v) g f).symm)

/-- Mapping one function after another maps their composition, also where a known value makes one of
them fail. -/
theorem fmap_comp (f g : Fun P) (t : Tree P G) : t.fmap (f.comp g) = t.fmap g >>= fmap f := by
  cases t with
  | pure v => cases hv : g v <;> simp [fmap, Fun.comp, hv, Except.map]
  | foreign typeName => rfl
  | unknown typeName => rfl
  | _ => simp [fmap, post_after_comp]

theorem fmap_fmap {f g : Fun P} {x y t : Tree P G} (hg : x.fmap g = .ok y) (hf : y.fmap f = .ok t) :
    x.fmap (f.comp g) = .ok t := by
  rw [fmap_comp, hg]
  exact hf

end Mapping

variable {perform : Effect P → Action σ (Val P)} {deferral : Source P G → Evaluation σ (Val P)}

/-- A function that was mapped is applied last. -/
theorem evaluateWith_fmap {f : Fun P} {t u : Tree P G} (h : t.fmap f = .ok u) :
    evaluateWith perform deferral u =
      evaluateWith perform deferral t >>= fun v => Evaluation.ofExcept (f v) := by
  cases t with
  | pure v =>
    obtain ⟨w, hv, rfl⟩ := exists_of_map_eq_ok h
    simp [evaluateWith, hv]
  | lifted e k =>
    cases h
    simp only [evaluateWith, bind_assoc, ← Evaluation.ofExcept_bind]
    rfl
  | selection d h k route =>
    cases h
    simp only [evaluateWith, bind_assoc, choose_after]
  | deferred g k =>
    cases h
    simp only [evaluateWith, bind_assoc, ← Evaluation.ofExcept_bind]
    rfl
  | loop action k =>
    cases h
    simp only [evaluateWith, bind_assoc, ← Evaluation.ofExcept_bind]
    rfl
  | foreign typeName => simp [fmap] at h
  | unknown typeName => simp [fmap] at h

theorem evaluateWith_fmap_eq_ok_iff {f : Fun P} {t u : Tree P G} (h : t.fmap f = .ok u) {v : Val P}
    {s s' : σ} : evaluateWith perform deferral u s = .ok (some v) s' ↔
      ∃ v₀, evaluateWith perform deferral t s = .ok (some v₀) s' ∧ f v₀ = .ok v := by
  rw [evaluateWith_fmap h]
  exact Evaluation.map_eq_ok_iff

/-- Handling evaluates the handler for a left tag, gives a right payload back, and faults on a value
without a tag, whichever way it was built. -/
theorem evaluateWith_handle_byTag {x y t : Tree P G} (h : x.handle y = .ok t) :
    evaluateWith perform deferral t = evaluateWith perform deferral x >>= Val.byTag
      (fun a => evaluateWith perform deferral y >>= fun g => Evaluation.ofExcept (g.call a))
      (fun b => Evaluation.ofExcept (.ok b))
      fun v => Evaluation.ofExcept (.error (if y.isPure then .noMember v.typeName "either"
        else .untaggedDisjunction v.typeName)) := by
  obtain ⟨g, rfl, hmap⟩ | ⟨a, rfl, hmap⟩ | ⟨hcollapses, rfl⟩ := handle_cases h
  · rw [evaluateWith_fmap hmap]
    refine bind_congr fun v => ?_
    by_cases hv : v.IsTagged
    · obtain ⟨a, rfl⟩ | ⟨b, rfl⟩ := hv
      · simp [Val.byTag, evaluateWith]
      · simp [Val.byTag]
    · rw [Val.byTag_untagged hv, Val.call_either_untagged hv]
      rfl
  · rw [evaluateWith_fmap hmap]
    simp [evaluateWith, Val.byTag]
  · have hpure : y.isPure = false := by
      cases y with
      | pure g => simp [collapses] at hcollapses
      | _ => rfl
    rw [evaluateWith]
    refine bind_congr fun v => ?_
    by_cases hv : v.IsTagged
    · obtain ⟨a, rfl⟩ | ⟨b, rfl⟩ := hv
      · exact choose_none_left _ a
      · rfl
    · obtain ⟨hl, hr⟩ := Val.ne_tag_of_not_isTagged hv
      rw [Val.byTag_untagged hv, choose_untagged hl hr, hpure]
      rfl

/-- Handling evaluates the handler for a left tag only, also where it builds no selection. From
one state it is enough that the disjunction is tagged there. -/
theorem evaluateWith_handle_at {x y t : Tree P G} {s : σ} (h : x.handle y = .ok t)
    (hx : ∀ v s', evaluateWith perform deferral x s = .ok (some v) s' → v.IsTagged) :
    evaluateWith perform deferral t s =
      (evaluateWith perform deferral x >>= choose (evaluateWith perform deferral y) none) s := by
  rw [evaluateWith_handle_byTag h]
  refine Evaluation.bind_congr_at fun v s' hv => ?_
  obtain ⟨a, rfl⟩ | ⟨b, rfl⟩ := hx v s' hv
  · rw [choose_none_left]
    rfl
  · rfl

theorem evaluateWith_handle {x y t : Tree P G} (h : x.handle y = .ok t)
    (hx : (evaluateWith perform deferral x).Tagged) :
    evaluateWith perform deferral t =
      evaluateWith perform deferral x >>= choose (evaluateWith perform deferral y) none :=
  funext fun s => evaluateWith_handle_at h (hx s)

end Tree

end SelectiveEffects
