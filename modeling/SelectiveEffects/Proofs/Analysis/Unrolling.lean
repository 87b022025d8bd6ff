import SelectiveEffects.Proofs.Analysis.Composition
import SelectiveEffects.Proofs.Analysis.Cutting
import SelectiveEffects.Proofs.Path.Initials

/-! Unrolling a loop that has no other loop inside it gives its first turns. -/

namespace SelectiveEffects

open Scenario

namespace Survey

variable {P G σ : Type} {deferral : Source P G → Action σ Survey}

/-- What a node does to its value last is not surveyed. -/
theorem ofTreeWith_post (d h : Tree P G) (k k' : Post P) (route : Route) :
    ofTreeWith deferral (.selection d h k route) =
      ofTreeWith deferral (.selection d h k' route) := by
  cases d <;> cases route <;> rfl

theorem ofTreeWith_fmap {f : Fun P} {t u : Tree P G} (h : t.fmap f = .ok u) :
    ofTreeWith deferral u = ofTreeWith deferral t := by
  cases t with
  | pure v =>
    obtain ⟨w, -, rfl⟩ := exists_of_map_eq_ok h
    rfl
  | selection d h' k route =>
    cases h
    exact ofTreeWith_post d h' _ k route
  | foreign typeName => cases h
  | unknown typeName => cases h
  | _ =>
    cases h
    rfl

/-- Without deferred nodes, a tree is described whatever becomes of them. -/
theorem describes_of_loopFree {t : Tree P G} (ht : t.Runnable) (hfree : t.LoopFree) :
    Describes (ofTreeWith deferral t) (t.languageWith fun _ => .nothing) False := by
  have hsame : ofTreeWith deferral t = ofTreeWith (fun _ => leaveOut false) t :=
    ofTreeWith_congr (fun _ _ hnone => absurd trivial hnone) ht hfree
  have hall : Describes (σ := σ) (ofTreeWith (fun _ => leaveOut false) t)
      (t.languageWith fun _ => .nothing) (t.Defers fun _ => True) :=
    describes_ofTreeWith (fun _ _ => describes_return Path.plain_nothing rfl (by simp)) ht
  rwa [← hsame, eq_false hfree] at hall

variable [Primitives P]

/-- At every bound, a survey goes through the tree with something for each deferred node. -/
theorem exists_ofTreeWith (gen : G → Action σ (Tree P G)) (strict : Bool) (n : Nat) :
    ∃ deferral, ∀ t, ofTree gen strict n t = ofTreeWith deferral t := by
  cases n with
  | zero => exact ⟨_, fun _ => rfl⟩
  | succ n => exact ⟨_, fun _ => rfl⟩

/-- An action under a condition is surveyed as one that may be left out. -/
theorem ofTreeWith_whenS {x y t : Tree P G} (h : Context.free.whenS x y = .ok t)
    (hx : x.isPure = false) (hy : y.isPure = false) : ofTreeWith deferral t = (do
      let a ← ofTreeWith deferral x
      let b ← ofTreeWith deferral y
      return a.maybe b) := by
  rw [Tree.whenS_eq_ifS] at h
  obtain ⟨tags, left, right, htags, hleft, hright, hselect⟩ := Tree.ifS_cases h
  cases hright
  obtain ⟨tagged, viaLeft, inner, htagged, hviaLeft, hinner, houter⟩ :=
    Tree.handlings_of_select hselect (.inr rfl)
  have htagged' : tagged.isPure = false :=
    (Tree.isPure_fmap htagged).trans ((Tree.isPure_fmap htags).trans hx)
  have hviaLeft' : viaLeft.isPure = false :=
    (Tree.isPure_fmap hviaLeft).trans ((Tree.isPure_fmap hleft).trans hy)
  have hcollapses : Tree.collapses tagged viaLeft = false :=
    (Tree.collapses_of_ne (Tree.ne_left_of_isPure htagged')).trans hviaLeft'
  obtain rfl := Tree.handle_of_not_collapses hinner hcollapses
  cases houter
  rw [ofTreeWith_optional, ofTreeWith_fmap htagged, ofTreeWith_fmap htags,
    ofTreeWith_fmap hviaLeft, ofTreeWith_fmap hleft]

/-- A loop is surveyed as a turn that may be followed by the loop, which is unrolled once less. -/
theorem exists_ofTree_loop_succ (gen : G → Action σ (Tree P G)) (strict : Bool) {action : Tree P G}
    (haction : action.Known) (hpure : action.isPure = false) (n : Nat) :
    ∃ deferral, ofTree gen strict (n + 1) (.loop action none) = (do
      let a ← ofTreeWith deferral action
      let b ← ofTree gen strict n (.loop action none)
      return a.maybe b) := by
  obtain ⟨t, ht⟩ := Tree.exists_whenS_loop haction (Tree.decides_of_isPure hpure)
  obtain ⟨deferral, hdeferral⟩ := exists_ofTreeWith gen strict n
  have hexpand : Source.expand gen (.loop action) = pure t := by
    rw [Source.expand, ht, Action.ofExcept_ok]
  have hforced : ofTree gen strict (n + 1) (.loop action none) = ofTree gen strict n t :=
    (congrArg (· >>= ofTree gen strict n) hexpand).trans (pure_bind t _)
  refine ⟨deferral, ?_⟩
  rw [hforced, hdeferral, hdeferral, ofTreeWith_whenS ht hpure rfl]

/-- The stages of a loop are its turns, and the loop in the last of them is left out. -/
theorem describes_loop (gen : G → Action σ (Tree P G)) {action : Tree P G}
    (haction : action.Runnable) (hfree : action.LoopFree) (hpure : action.isPure = false)
    (n : Nat) :
    Describes (ofTree gen false n (.loop action none))
      (.stages (List.replicate n (action.languageWith fun _ => .nothing))) True := by
  induction n with
  | zero => exact describes_return Path.plain_nothing rfl (by simp)
  | succ n ih =>
    obtain ⟨deferral, hturn⟩ := exists_ofTree_loop_succ gen false (Tree.Every.known haction) hpure n
    rw [hturn, List.replicate_succ]
    have honce : Describes (ofTreeWith deferral action) _ False :=
      describes_of_loopFree haction hfree
    have hboth := honce.maybe ih
    rwa [or_true] at hboth

/-- Nothing is unrolled where nothing is deferred. -/
theorem describes_ofTree_of_loopFree (gen : G → Action σ (Tree P G)) {t : Tree P G}
    (ht : t.Runnable) (hfree : t.LoopFree) (n : Nat) :
    Describes (ofTree gen false n t) (t.languageWith fun _ => .nothing) False := by
  obtain ⟨deferral, hdeferral⟩ := exists_ofTreeWith gen false n
  rw [hdeferral]
  exact describes_of_loopFree ht hfree

end Survey

namespace Analysis

variable {P G σ : Type} [Primitives P]

/-- Unrolled so many times, a loop performs its action any number of times up to that, but once at
least. It is always marked as cut, and what it needs is what one turn needs. No generator has a part
in it, so that nothing is asked of them. -/
theorem possibilities_loop (gen : G → Action σ (Tree P G)) {action : Tree P G}
    (haction : action.Runnable) (hfree : action.LoopFree) (hpure : action.isPure = false) {n : Nat}
    (hn : 0 < n) :
    ∃ t L, Context.free.whileS action = .ok t ∧ (∀ m, Recognises gen m action L) ∧
      Recognises gen n t (fun s => ∃ j, 0 < j ∧ j ≤ n ∧ Language.inOrder (List.replicate j L) s) ∧
      (∀ (w : σ) (cap : Int), 0 < cap →
        ∃ S w', possibilities gen t n false cap w = .ok S w' ∧ S.truncated = true) ∧
      ∀ (m : Nat) (w w' : σ), ∃ needed w₁ needed' w₁',
        necessary gen t n w = .ok needed w₁ ∧ necessary gen action m w' = .ok needed' w₁' ∧
          ∀ l, l ∈ needed ↔ l ∈ needed' := by
  have hone := Survey.describes_ofTree_of_loopFree gen haction hfree
  have hloop := Survey.describes_loop gen haction hfree hpure n
  rw [Language.stages_eq_initials (mt (List.replicate_eq_nil_iff _).mp hn.ne')] at hloop
  refine ⟨_, _, rfl, fun m => recognises_of_describes (hone m), ?_, fun w cap hcap => ?_,
    fun m w w' => ?_⟩
  · rw [← Language.initials_replicate]
    exact recognises_of_describes hloop
  · obtain ⟨S, w', hS, hdenotes⟩ := denotes_of_describes hloop hcap w
    exact ⟨S, w', hS, hdenotes.truncated_iff.mpr (.inl trivial)⟩
  · obtain ⟨needed, w₁, hneeded, hneeds⟩ := necessary_of_describes hloop w
    obtain ⟨needed', w₁', hneeded', hneeds'⟩ := necessary_of_describes (hone m) w'
    refine ⟨needed, w₁, needed', w₁', hneeded, hneeded', fun l => ?_⟩
    obtain ⟨n, rfl⟩ := Nat.exists_eq_add_one_of_ne_zero hn.ne'
    rw [hneeds, hneeds', List.replicate_succ, Language.needs_initials_cons]

/-- A question that may be followed by an answer, asked up to three times. It may be answered or not
each time, and is always asked. -/
theorem possibilities_loop_question :
    let effect (name : String) : Effect Builtin :=
      { className := name, lineage := [name], fields := [], label := .ok name }
    let gen : Unit → Action Nat (Tree Builtin Unit) := fun _ => throw (.raised .value "unused")
    let action : Tree Builtin Unit :=
      .selection (.lift (effect "Ask")) (.lift (effect "Answer")) none .optional
    action.Runnable ∧ action.LoopFree ∧ action.isPure = false ∧ 0 < 3 ∧
      ∃ t, Context.free.whileS action = .ok t ∧
        (∃ S w, possibilities gen t (3 : Nat) false 20 0 = .ok S w ∧ S.truncated = true ∧
          S.contains ["Ask", "Answer", "Ask"] = true ∧ S.contains [] = false) ∧
        ∃ needed w, necessary gen t (3 : Nat) 0 = .ok needed w ∧ ∀ l, l ∈ needed ↔ l = "Ask" := by
  intro effect gen action
  have haction : action.Runnable := ⟨⟨"Ask", rfl⟩, ⟨"Answer", rfl⟩⟩
  have hfree : action.LoopFree := fun h => h.elim id id
  have hthree : 0 < 3 := by decide
  obtain ⟨t, L, hloop, hL, hrec, hcut, hneeds⟩ :=
    possibilities_loop gen haction hfree rfl hthree
  have hlabel (name : String) : Tree.labelLanguage (effect name) = .single name :=
    Tree.labelLanguage_eq rfl
  have hlanguage : L = (Language.single "Ask").followedBy (Language.single "Answer").maybe := by
    rw [(hL 0).unique (recognises_of_describes
      (Survey.describes_ofTree_of_loopFree gen haction hfree 0)) 0, ← hlabel, ← hlabel]
    rfl
  have hunanswered : L ["Ask"] := hlanguage ▸ ⟨["Ask"], [], rfl, rfl, .inl rfl⟩
  have hanswered : L ["Ask", "Answer"] := hlanguage ▸ ⟨["Ask"], ["Answer"], rfl, rfl, .inr rfl⟩
  obtain ⟨S, w, hS, hcontains⟩ := hrec 0 20 (by decide)
  obtain ⟨_, _, hS', htruncated⟩ := hcut 0 20 (by decide)
  cases hS.symm.trans hS'
  have hboth : S.contains ["Ask", "Answer", "Ask"] = true :=
    (hcontains _).mpr ⟨2, by decide, by decide, ["Ask", "Answer"], ["Ask"], rfl, hanswered,
      ["Ask"], [], rfl, hunanswered, rfl⟩
  have hempty : S.contains [] = false := by
    refine Bool.eq_false_iff.mpr fun hmem => ?_
    obtain ⟨j, hpos, -, hs⟩ := (hcontains _).mp hmem
    obtain ⟨j, rfl⟩ := Nat.exists_eq_add_one_of_ne_zero hpos.ne'
    obtain ⟨a, b, hab, ha, -⟩ := hs
    rw [(List.append_eq_nil_iff.mp hab.symm).1, hlanguage] at ha
    obtain ⟨c, d, hcd, hc, -⟩ := ha
    cases (List.append_eq_nil_iff.mp hcd.symm).1.symm.trans hc
  obtain ⟨needed, w₁, needed', w₁', hneeded, hneeded', hiff⟩ := hneeds 0 0 0
  have hone : necessary gen action (0 : Nat) 0 = .ok ["Ask"] 0 := rfl
  cases hone.symm.trans hneeded'
  refine ⟨haction, hfree, rfl, hthree, t, hloop, ⟨S, w, hS, htruncated, hboth, hempty⟩, needed, w₁,
    hneeded, fun l => ?_⟩
  rw [hiff, List.mem_singleton]

end Analysis

end SelectiveEffects
