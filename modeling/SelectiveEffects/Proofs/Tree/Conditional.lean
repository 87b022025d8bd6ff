import SelectiveEffects.Proofs.Tree.Equations

/-! Direct evaluation of what selection and the conditionals build, whatever they collapse to. -/

namespace SelectiveEffects

/-- Goes by whether a value is absent. -/
def Val.byAbsence {P α : Type} (absent : α) (present : Val P → α) : Val P → α
  | .null => absent
  | v => present v

namespace Tree

variable {P G σ : Type} [Primitives P]

/-- One branch is evaluated, for its function of the payload. -/
def branch (left right : Evaluation σ (Val P)) : Val P → Evaluation σ (Val P)
  | .left a => do
    let f ← left
    Evaluation.ofExcept (f.call a)
  | .right b => do
    let g ← right
    Evaluation.ofExcept (g.call b)
  | v => Evaluation.ofExcept (.error (.untaggedDisjunction v.typeName))

variable {perform : Effect P → Action σ (Val P)} {deferral : Source P G → Evaluation σ (Val P)}

theorem evaluateWith_withRoute (route : Route) (t : Tree P G) :
    evaluateWith perform deferral (t.withRoute route) = evaluateWith perform deferral t := by
  cases t <;> rfl

/-- Selection evaluates one branch, and faults on a value without a tag, whichever way it was built:
two handlings, of which the outer one is skipped exactly when the inner one ran its branch. -/
theorem evaluateWith_select_byTag {x l r t : Tree P G} (h : x.select l r = .ok t) :
    evaluateWith perform deferral t = evaluateWith perform deferral x >>= Val.byTag
      (fun a => evaluateWith perform deferral l >>= fun f => Evaluation.ofExcept (f.call a))
      (fun b => evaluateWith perform deferral r >>= fun g => Evaluation.ofExcept (g.call b))
      fun v => Evaluation.ofExcept (.error (.noMember v.typeName "map")) := by
  obtain ⟨tagged, viaLeft, inner, outer, htagged, hviaLeft, hinner, houter, rfl⟩ := select_cases h
  have hout : evaluateWith perform deferral (if collapses tagged viaLeft || collapses inner r
      then outer else outer.withRoute .exclusive) = evaluateWith perform deferral outer := by
    split
    · rfl
    · exact evaluateWith_withRoute .exclusive outer
  rw [hout, evaluateWith_handle_byTag houter, evaluateWith_handle_byTag hinner,
    evaluateWith_fmap htagged, evaluateWith_fmap hviaLeft, bind_assoc, bind_assoc]
  refine bind_congr fun v => ?_
  by_cases hv : v.IsTagged
  · obtain ⟨a, rfl⟩ | ⟨b, rfl⟩ := hv
    · rw [Fun.retag_left, Evaluation.ofExcept_ok, pure_bind, Val.byTag, Val.byTag, bind_assoc,
        bind_assoc]
      refine bind_congr fun f => ?_
      rw [Fun.thenRight, Evaluation.ofExcept_ok, pure_bind, Val.call_compose]
      cases f.call a with
      | error e => rfl
      | ok c => simp [Val.byTag]
    · simp [Val.byTag]
  · rw [Fun.retag_untagged hv, Val.byTag_untagged hv]
    rfl

/-- From one state it is enough that the disjunction is tagged there. -/
theorem evaluateWith_select_at {x l r t : Tree P G} {s : σ} (h : x.select l r = .ok t)
    (hx : ∀ v s', evaluateWith perform deferral x s = .ok (some v) s' → v.IsTagged) :
    evaluateWith perform deferral t s =
      (evaluateWith perform deferral x >>=
        branch (evaluateWith perform deferral l) (evaluateWith perform deferral r)) s := by
  rw [evaluateWith_select_byTag h]
  refine Evaluation.bind_congr_at fun v s' hv => ?_
  obtain ⟨a, rfl⟩ | ⟨b, rfl⟩ := hx v s' hv <;> rfl

theorem evaluateWith_select {x l r t : Tree P G} (h : x.select l r = .ok t)
    (hx : (evaluateWith perform deferral x).Tagged) :
    evaluateWith perform deferral t = evaluateWith perform deferral x >>=
      branch (evaluateWith perform deferral l) (evaluateWith perform deferral r) :=
  funext fun s => evaluateWith_select_at h (hx s)

/-- A conditional evaluates the branch that the truth of its condition chooses, if there is a truth to
go by. -/
theorem evaluateWith_ifS {condition onTrue onFalse t : Tree P G}
    (h : Context.free.ifS condition onTrue onFalse = .ok t) :
    evaluateWith perform deferral t = evaluateWith perform deferral condition >>= Val.byTruth
      (fun b => if b then evaluateWith perform deferral onTrue
        else evaluateWith perform deferral onFalse)
      fun e => Evaluation.ofExcept (.error e) := by
  obtain ⟨tagged, left, right, htagged, hleft, hright, hselect⟩ := ifS_cases h
  have htags : (evaluateWith perform deferral tagged).Tagged := by
    rw [evaluateWith_fmap htagged]
    refine Evaluation.Tagged.bind fun _ v _ _ => Evaluation.tagged_ofExcept fun u hu => ?_
    obtain ⟨b, -, rfl⟩ := Fun.truthToTag_eq_ok hu
    cases b
    · exact .inr ⟨.null, rfl⟩
    · exact .inl ⟨.null, rfl⟩
  rw [evaluateWith_select hselect htags, evaluateWith_fmap htagged, evaluateWith_fmap hleft,
    evaluateWith_fmap hright, bind_assoc]
  refine bind_congr fun v => ?_
  cases hv : v.truth with
  | ok b =>
    rw [Val.byTruth_of_ok hv, Fun.truthToTag_of_ok hv]
    cases b <;> simp [Fun.constantly, branch]
  | error e =>
    rw [Val.byTruth_of_error hv, Fun.truthToTag_eq_error_iff.mpr hv]
    rfl

/-- The fallback is evaluated for an absent value only. -/
theorem evaluateWith_fromMaybe {fallback x t : Tree P G}
    (h : Context.free.fromMaybe fallback x = .ok t) :
    evaluateWith perform deferral t = evaluateWith perform deferral x >>=
      Val.byAbsence (evaluateWith perform deferral fallback) fun v => Evaluation.ofExcept (.ok v) := by
  obtain ⟨tagged, htagged, h⟩ := exists_of_bind_eq_ok h
  obtain ⟨handler, hhandler, hhandle⟩ := exists_of_bind_eq_ok h
  rw [evaluateWith_handle_byTag hhandle, evaluateWith_fmap htagged, evaluateWith_fmap hhandler,
    bind_assoc]
  refine bind_congr fun v => ?_
  cases v with
  | null => simp [Fun.absentToTag, Fun.constantly, Val.byTag, Val.byAbsence]
  | _ => simp [Fun.absentToTag, Val.byTag, Val.byAbsence]

end Tree

end SelectiveEffects
