import SelectiveEffects.Proofs.Path.Matching

/-! Numbering tells the nodes of a path apart. -/

namespace SelectiveEffects.Path

mutual

/-- A path and everything inside it. -/
def nodes : Path → List Path
  | empty tag => [empty tag]
  | step tag l => [step tag l]
  | seq tag ps => seq tag ps :: nodesAll ps
  | alt tag ps => alt tag ps :: nodesAll ps

def nodesAll : List Path → List Path
  | [] => []
  | p :: ps => p.nodes ++ nodesAll ps

end

theorem mem_nodesAll_iff {p : Path} {ps : List Path} :
    p ∈ nodesAll ps ↔ ∃ q ∈ ps, p ∈ q.nodes := by
  induction ps with
  | nil => simp [nodesAll]
  | cons q ps ih => simp [nodesAll, ih]

theorem self_mem_nodes (p : Path) : p ∈ p.nodes := by
  cases p <;> simp [nodes]

/-- What is inside a part of a path is inside the path. -/
theorem mem_nodes_of_part {p q r : Path} {ps : List Path} (hp : p.nodes = p :: nodesAll ps)
    (hq : q ∈ ps) (hr : r ∈ q.nodes) : r ∈ p.nodes := by
  rw [hp]
  exact List.mem_cons_of_mem _ (mem_nodesAll_iff.mpr ⟨q, hq, hr⟩)

/-- The nodes of a path that was numbered with the tags from `low` to `high`. -/
structure Numbered (low high : Nat) (ps : List Path) : Prop where
  le : low ≤ high
  between : ∀ p ∈ ps, p = nothing ∨ low ≤ p.tag ∧ p.tag < high
  apart : ∀ p ∈ ps, ∀ q ∈ ps, p.tag = q.tag → p = q

namespace Numbered

variable {low mid high : Nat} {ps qs : List Path}

theorem nil : Numbered low low [] :=
  ⟨Nat.le_refl low, by simp, by simp⟩

theorem append (hlow : 0 < low) (hp : Numbered low mid ps) (hq : Numbered mid high qs) :
    Numbered low high (ps ++ qs) where
  le := Nat.le_trans hp.le hq.le
  between p h := by
    have := hp.le
    have := hq.le
    rcases List.mem_append.mp h with h | h
    · rcases hp.between p h with hnil | ⟨h₁, h₂⟩
      · exact .inl hnil
      · exact .inr ⟨h₁, by omega⟩
    · rcases hq.between p h with hnil | ⟨h₁, h₂⟩
      · exact .inl hnil
      · exact .inr ⟨by omega, h₂⟩
  apart p h q h' htag := by
    have hcross : ∀ p ∈ ps, ∀ q ∈ qs, p.tag = q.tag → p = q := by
      intro p h q h' htag
      have hle := hp.le
      rcases hp.between p h with rfl | ⟨h₁, h₂⟩ <;> rcases hq.between q h' with rfl | ⟨h₃, h₄⟩
      · rfl
      · have : (nothing : Path).tag = 0 := rfl
        omega
      · have : (nothing : Path).tag = 0 := rfl
        omega
      · omega
    rcases List.mem_append.mp h with h | h <;> rcases List.mem_append.mp h' with h' | h'
    · exact hp.apart p h q h' htag
    · exact hcross p h q h' htag
    · exact (hcross q h' p h htag.symm).symm
    · exact hq.apart p h q h' htag

theorem cons {p : Path} (hp : p.tag = low) (hlow : 0 < low) (h : Numbered (low + 1) high ps) :
    Numbered low high (p :: ps) := by
  have hone : Numbered low (low + 1) [p] := by
    refine ⟨Nat.le_succ low, ?_, ?_⟩
    · intro q hq
      cases List.mem_singleton.mp hq
      exact .inr ⟨by omega, by omega⟩
    · intro q hq r hr _
      rw [List.mem_singleton.mp hq, List.mem_singleton.mp hr]
  exact append hlow hone h

end Numbered

/-- The only empty path inside is the shared one. -/
def Plain (p : Path) : Prop :=
  ∀ tag, empty tag ∈ p.nodes → tag = 0

theorem plain_nothing : Plain nothing := by
  intro tag h
  cases List.mem_singleton.mp h
  rfl

theorem plain_step (tag : Nat) (label : String) : Plain (step tag label) := by
  intro tag' h
  cases List.mem_singleton.mp h

theorem plain_of_parts {p : Path} {ps : List Path} (hp : p.nodes = p :: nodesAll ps)
    (hempty : ∀ tag, p ≠ empty tag) (h : ∀ q ∈ ps, q.Plain) : p.Plain := by
  intro tag hmem
  rw [hp] at hmem
  rcases List.mem_cons.mp hmem with hself | hmem
  · exact absurd hself.symm (hempty tag)
  · obtain ⟨q, hq, hmem⟩ := mem_nodesAll_iff.mp hmem
    exact h q hq tag hmem

theorem Plain.part {p q : Path} {ps : List Path} (h : p.Plain) (hp : p.nodes = p :: nodesAll ps)
    (hq : q ∈ ps) : q.Plain :=
  fun tag ht => h tag (mem_nodes_of_part hp hq ht)

theorem plain_of_mem_flattened {p q : Path} (hp : p.Plain) (h : q ∈ p.flattened) : q.Plain := by
  have hother (p : Path) (hp : p.Plain) (h : q ∈ if p.isNothing then [] else [p]) : q.Plain := by
    split at h
    · cases h
    · exact List.mem_singleton.mp h ▸ hp
  cases p with
  | seq tag ps => exact hp.part rfl h
  | empty tag => exact hother _ hp h
  | step tag l => exact hother _ hp h
  | alt tag ps => exact hother _ hp h

theorem plain_seqOf {tag : Nat} {parts : List Path} (h : ∀ p ∈ parts, p.Plain) :
    Plain (seqOf tag parts) := by
  have hparts : ∀ q ∈ parts.flatMap flattened, q.Plain := by
    intro q hq
    obtain ⟨p, hp, hmem⟩ := List.mem_flatMap.mp hq
    exact plain_of_mem_flattened (h p hp) hmem
  unfold seqOf
  split
  · exact plain_nothing
  · rename_i p hp
    exact hparts p (hp ▸ List.mem_singleton_self p)
  · exact plain_of_parts rfl (by simp) hparts

theorem mem_of_mem_withoutRepeats {seen : Bool} {p : Path} {ps : List Path}
    (h : p ∈ withoutRepeats seen ps) : p ∈ ps := by
  induction ps generalizing seen with
  | nil => cases h
  | cons q ps ih =>
    simp only [withoutRepeats] at h
    split at h
    · split at h
      · exact List.mem_cons_of_mem _ (ih h)
      · rcases List.mem_cons.mp h with rfl | h
        · exact List.mem_cons_self
        · exact List.mem_cons_of_mem _ (ih h)
    · rcases List.mem_cons.mp h with rfl | h
      · exact List.mem_cons_self
      · exact List.mem_cons_of_mem _ (ih h)

theorem plain_altOf {tag : Nat} {options : List Path} (h : ∀ p ∈ options, p.Plain) :
    Plain (altOf tag options) := by
  have hkept : ∀ q ∈ withoutRepeats false options, q.Plain := fun q hq =>
    h q (mem_of_mem_withoutRepeats hq)
  unfold altOf
  split
  · rename_i p hp
    exact hkept p (hp ▸ List.mem_singleton_self p)
  · exact plain_of_parts rfl (by simp) hkept

mutual

theorem numbered_number (p : Path) {next : Nat} (hnext : 0 < next) (hp : p.Plain) :
    Numbered next (p.number next).2 (p.number next).1.nodes := by
  cases p with
  | empty tag =>
    cases hp tag (self_mem_nodes _)
    exact ⟨Nat.le_refl _, fun p h => .inl (List.mem_singleton.mp h), fun p h q h' _ =>
      (List.mem_singleton.mp h).trans (List.mem_singleton.mp h').symm⟩
  | step tag l => exact Numbered.cons rfl hnext Numbered.nil
  | seq tag ps =>
    exact Numbered.cons rfl hnext
      (numbered_numberAll ps (Nat.succ_pos next) fun q hq => hp.part rfl hq)
  | alt tag ps =>
    exact Numbered.cons rfl hnext
      (numbered_numberAll ps (Nat.succ_pos next) fun q hq => hp.part rfl hq)

theorem numbered_numberAll (ps : List Path) {next : Nat} (hnext : 0 < next)
    (hp : ∀ p ∈ ps, p.Plain) :
    Numbered next (numberAll next ps).2 (nodesAll (numberAll next ps).1) := by
  cases ps with
  | nil => exact Numbered.nil
  | cons p ps =>
    have hhead := numbered_number p hnext (hp p List.mem_cons_self)
    exact hhead.append hnext (numbered_numberAll ps (Nat.lt_of_lt_of_le hnext hhead.le)
      fun q h => hp q (List.mem_cons_of_mem _ h))

end

mutual

theorem mem_nodes_trans (p : Path) {q r : Path} (hq : q ∈ p.nodes) (hr : r ∈ q.nodes) :
    r ∈ p.nodes := by
  cases p with
  | empty tag =>
    cases List.mem_singleton.mp hq
    exact hr
  | step tag l =>
    cases List.mem_singleton.mp hq
    exact hr
  | seq tag ps =>
    rcases List.mem_cons.mp hq with rfl | hq
    · exact hr
    · exact List.mem_cons_of_mem _ (mem_nodesAll_trans ps hq hr)
  | alt tag ps =>
    rcases List.mem_cons.mp hq with rfl | hq
    · exact hr
    · exact List.mem_cons_of_mem _ (mem_nodesAll_trans ps hq hr)

theorem mem_nodesAll_trans (ps : List Path) {q r : Path} (hq : q ∈ nodesAll ps)
    (hr : r ∈ q.nodes) : r ∈ nodesAll ps := by
  cases ps with
  | nil => cases hq
  | cons p ps =>
    rcases List.mem_append.mp hq with hq | hq
    · exact List.mem_append_left _ (mem_nodes_trans p hq hr)
    · exact List.mem_append_right _ (mem_nodesAll_trans ps hq hr)

end

/-- A tag stands for one node of the path, wherever and however often that is shared. -/
def Identified (p : Path) : Prop :=
  ∀ q ∈ p.nodes, ∀ r ∈ p.nodes, q.tag = r.tag → q = r

theorem Identified.shared {p : Path} (h : p.Identified) : Shared (· ∈ p.nodes) where
  eq_of_tag hq hr := h _ hq _ hr
  of_seq h q hq := mem_nodes_trans _ h (mem_nodes_of_part rfl hq (self_mem_nodes q))
  of_alt h q hq := mem_nodes_trans _ h (mem_nodes_of_part rfl hq (self_mem_nodes q))

theorem identified_numbered {p : Path} (hp : p.Plain) : p.numbered.Identified :=
  (numbered_number p Nat.one_pos hp).apart

/-- A numbered path accepts exactly the sequences of the path. -/
theorem accepts_numbered {p : Path} (hp : p.Plain) (s : List String) :
    p.numbered.accepts s = true ↔ p.language s := by
  rw [accepts_iff (identified_numbered hp).shared (self_mem_nodes _), language_numbered]

end SelectiveEffects.Path
