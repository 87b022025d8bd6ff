import SelectiveEffects.Context.Free

/-! Control flow can be built from every tree of a known kind. -/

namespace SelectiveEffects

namespace Tree

variable {P G : Type}

/-- The root is of a known kind, and has the property if it is a known value. -/
def KnownWith (p : Val P → Prop) : Tree P G → Prop
  | pure v => p v
  | foreign _ | unknown _ => False
  | _ => True

/-- The root is of a known kind, so that functions can be mapped over the tree. -/
def Known (t : Tree P G) : Prop :=
  t.KnownWith fun _ => True

/-- The fault of testing the truth of a known value, if it raises one. -/
def truthFault? : Tree P G → Option Fault
  | pure v => v.byTruth (fun _ => none) some
  | _ => none

/-- The value is unknown, or else its truth can be told. -/
def Decides (t : Tree P G) : Prop :=
  t.truthFault? = none

theorem decides_of_isPure {t : Tree P G} (h : t.isPure = false) : t.Decides := by
  cases t with
  | pure v => cases h
  | _ => rfl

theorem truthFault?_eq_some_iff {t : Tree P G} {e : Fault} :
    t.truthFault? = some e ↔ ∃ v, t = pure v ∧ v.truth = .error e := by
  cases t with
  | pure v =>
    cases hv : v.truth with
    | ok b => simp [truthFault?, Val.byTruth_of_ok hv, hv]
    | error e' => simp [truthFault?, Val.byTruth_of_error hv, hv]
  | _ => simp [truthFault?]

theorem Known.knownWith {t : Tree P G} (h : t.Known) (hd : t.Decides) :
    t.KnownWith fun v => ∃ b, v.truth = .ok b := by
  cases t with
  | pure v =>
    cases hv : v.truth with
    | ok b => exact ⟨b, hv⟩
    | error e => cases hd.symm.trans (truthFault?_eq_some_iff.mpr ⟨v, rfl, hv⟩)
  | _ => exact h

theorem KnownWith.isNode {p : Val P → Prop} {t : Tree P G} (h : t.KnownWith p) :
    t.isNode = true := by
  cases t with
  | foreign typeName => exact h.elim
  | _ => rfl

/-- Only a known value can make mapping fail. -/
theorem exists_fmap {p q : Val P → Prop} {f : Fun P} {t : Tree P G} (ht : t.KnownWith p)
    (hf : ∀ v, p v → ∃ w, f v = .ok w ∧ q w) : ∃ u, t.fmap f = .ok u ∧ u.KnownWith q := by
  cases t with
  | pure v =>
    obtain ⟨w, hw, hq⟩ := hf v ht
    exact ⟨pure w, by simp [fmap, hw, Except.map], hq⟩
  | foreign typeName => exact ht.elim
  | unknown typeName => exact ht.elim
  | _ => exact ⟨_, rfl, trivial⟩

variable [Primitives P]

/-- Only a known function can make handling fail, when it meets a known value. -/
theorem exists_handle {p q r : Val P → Prop} {x y : Tree P G} (hx : x.KnownWith p)
    (hy : y.KnownWith q)
    (h : ∀ v g, p v → q g → ∃ w, (Val.either g .identity).call v = .ok w ∧ r w) :
    ∃ t, x.handle y = .ok t ∧ t.KnownWith r := by
  have hnodes : (x.isNode && y.isNode) = true := by rw [hx.isNode, hy.isNode, Bool.and_self]
  unfold handle
  rw [if_pos hnodes]
  split
  · exact exists_fmap hx fun v hv => h v _ hv hy
  · rename_i a hpure
    refine exists_fmap (p := fun _ => False) ?_ fun v hv => hv.elim
    cases y with
    | pure g => exact absurd rfl (hpure g)
    | _ => exact hy
  · exact ⟨_, rfl, trivial⟩

/-- A condition makes tags of its truth, and the branches make constant functions, so nothing else
than the test of a known condition can fail while a conditional is built. -/
theorem exists_ifS {condition onTrue onFalse : Tree P G} (hc : condition.Known)
    (hd : condition.Decides) (ht : onTrue.Known) (hf : onFalse.Known) :
    ∃ t, Context.free.ifS condition onTrue onFalse = .ok t ∧ t.Known := by
  obtain ⟨tags, htags, hktags⟩ := exists_fmap (f := Fun.truthToTag)
    (q := fun w => w = .left .null ∨ w = .right .null) (hc.knownWith hd) fun v hv => by
      obtain ⟨b, hb⟩ := hv
      exact ⟨_, Fun.truthToTag_of_ok hb, by cases b <;> simp⟩
  obtain ⟨left, hleft, hkleft⟩ := exists_fmap (f := Fun.constantly)
    (q := fun w => ∃ c, w = .constant c) ht fun v _ => ⟨_, rfl, v, rfl⟩
  obtain ⟨right, hright, hkright⟩ := exists_fmap (f := Fun.constantly)
    (q := fun w => ∃ c, w = .constant c) hf fun v _ => ⟨_, rfl, v, rfl⟩
  obtain ⟨tagged, htagged, hktagged⟩ := exists_fmap (f := Fun.retag)
    (q := fun w => w = .left .null ∨ w = .right (.left .null)) hktags fun v hv => by
      rcases hv with rfl | rfl <;> simp
  obtain ⟨viaLeft, hviaLeft, hkviaLeft⟩ := exists_fmap (f := Fun.thenRight)
    (q := fun w => ∃ c, w = .compose .toRight (.constant c)) hkleft fun v hv => by
      obtain ⟨c, rfl⟩ := hv
      exact ⟨_, rfl, c, rfl⟩
  obtain ⟨inner, hinner, hkinner⟩ := exists_handle
    (r := fun w => (∃ c, w = .right c) ∨ w = .left .null) hktagged hkviaLeft fun v g hv hg => by
      obtain ⟨c, rfl⟩ := hg
      rcases hv with rfl | rfl <;> simp [Val.call_compose]
  obtain ⟨outer, houter, hkouter⟩ := exists_handle (r := fun _ => True) hkinner hkright
    fun v g hv hg => by
      obtain ⟨c, rfl⟩ := hg
      rcases hv with ⟨b, rfl⟩ | rfl <;> simp
  refine ⟨if collapses tagged viaLeft || collapses inner right then outer
    else outer.withRoute .exclusive, ?_, ?_⟩
  · simp only [Context.ifS, Context.free_map, Context.free_select, htags, hleft, hright, ok_bind,
      select, htagged, hviaLeft, hinner, houter]
    split <;> rfl
  · split
    · exact hkouter
    · cases outer <;> exact hkouter

theorem ifS_pure_of_error {v : Val P} {e : Fault} (h : v.truth = .error e)
    (onTrue onFalse : Tree P G) : Context.free.ifS (pure v) onTrue onFalse = .error e := by
  simp [Context.ifS, fmap, Fun.truthToTag_eq_error_iff.mpr h, Except.map]

/-- A conditional fails when it is built where its condition is known and has no truth. -/
theorem ifS_eq_error_iff {condition onTrue onFalse : Tree P G} (hc : condition.Known)
    (ht : onTrue.Known) (hf : onFalse.Known) {e : Fault} :
    Context.free.ifS condition onTrue onFalse = .error e ↔ condition.truthFault? = some e := by
  cases hfault : condition.truthFault? with
  | none =>
    obtain ⟨t, hok, -⟩ := exists_ifS hc hfault ht hf
    simp [hok]
  | some e' =>
    obtain ⟨v, rfl, hv⟩ := truthFault?_eq_some_iff.mp hfault
    simp [ifS_pure_of_error hv]

/-- Nothing fails while a fallback is attached, because a tag and a constant function are made of the
values that are known. -/
theorem exists_fromMaybe {fallback x : Tree P G} (hf : fallback.Known) (hx : x.Known) :
    ∃ t, Context.free.fromMaybe fallback x = .ok t := by
  obtain ⟨tagged, htagged, hktagged⟩ := exists_fmap (f := Fun.absentToTag)
    (q := fun w => w = .left .null ∨ ∃ v, w = .right v) hx fun v _ => by
      cases v with
      | null => exact ⟨_, rfl, .inl rfl⟩
      | _ => exact ⟨_, rfl, .inr ⟨_, rfl⟩⟩
  obtain ⟨handler, hhandler, hkhandler⟩ := exists_fmap (f := Fun.constantly)
    (q := fun w => ∃ c, w = .constant c) hf fun v _ => ⟨_, rfl, v, rfl⟩
  obtain ⟨t, ht, -⟩ := exists_handle (r := fun _ => True) hktagged hkhandler fun v g hv hg => by
    obtain ⟨c, rfl⟩ := hg
    rcases hv with rfl | ⟨b, rfl⟩ <;> simp
  refine ⟨t, ?_⟩
  simp only [Context.fromMaybe, Context.free_map, Context.free_handle, htagged, hhandler, ok_bind, ht]

section Settled

omit [Primitives P] in
theorem known_of_fmap {f : Fun P} {t u : Tree P G} (h : t.fmap f = .ok u) : u.Known := by
  cases t with
  | pure v =>
    obtain ⟨w, -, rfl⟩ := exists_of_map_eq_ok h
    trivial
  | foreign typeName => cases h
  | unknown typeName => cases h
  | _ =>
    cases h
    trivial

variable {t x y l r : Tree P G} {e : Fault}

omit [Primitives P] in
/-- Mapping is settled by applying the function to a known value, and by nothing else. -/
theorem fmap_eq_map_pure_iff {f : Fun P} (ht : t.Known) (result : Except Fault (Val P)) :
    t.fmap f = result.map pure ↔ ∃ v, t = pure v ∧ f v = result := by
  cases t with
  | pure v =>
    cases hv : f v <;> cases result <;> simp [fmap, hv, Except.map]
  | foreign typeName => exact ht.elim
  | unknown typeName => exact ht.elim
  | _ => cases result <;> simp [fmap, Except.map]

omit [Primitives P] in
theorem fmap_eq_error_iff {f : Fun P} (ht : t.Known) :
    t.fmap f = .error e ↔ ∃ v, t = pure v ∧ f v = .error e :=
  fmap_eq_map_pure_iff ht (.error e)

end Settled

end Tree

end SelectiveEffects
