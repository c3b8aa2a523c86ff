import ExactLinear.Equation.Solution

/-! # Variables under the operations

Multiplying through keeps the variables in their order, and substituting takes one away. Adding a
constant moves no variable in or out.
-/

namespace ExactLinear

theorem mapM_name {f : Term → Except Fault Term} (hf : ∀ t u, f t = .ok u → u.name = t.name)
    {ts us : List Term} (h : ts.mapM f = .ok us) : us.map Term.name = ts.map Term.name := by
  induction ts generalizing us with
  | nil => cases h; rfl
  | cons t ts ih =>
    rw [List.mapM_cons] at h
    obtain ⟨u, hu, h⟩ := bind_eq_ok.1 h
    obtain ⟨us', hus, h⟩ := bind_eq_ok.1 h
    cases h
    simp [hf t u hu, ih hus]

namespace Equation

theorem unknowns_eq (e : Equation) :
    e.unknowns = (e.terms.map Term.name).filter fun n => !n.isBlank := by
  rw [List.filter_map]
  rfl

theorem names_multiply {e r : Equation} {x : Fraction} (h : e.multiply x = .ok r) :
    r.terms.map Term.name = e.terms.map Term.name := by
  obtain ⟨ts, hts, h⟩ := bind_eq_ok.1 h
  cases h
  refine mapM_name (fun t u hu => ?_) hts
  obtain ⟨y, _, _, rfl⟩ := Term.multiply_eq_ok.1 hu
  rfl

theorem names_simplify {e r : Equation} (h : e.simplify = .ok r) :
    r.terms.map Term.name = e.terms.map Term.name := by
  rw [simplify] at h
  split at h
  · cases h; rfl
  · obtain ⟨n, _, h⟩ := bind_eq_ok.1 h
    obtain ⟨d, _, h⟩ := bind_eq_ok.1 h
    split at h
    · split at h
      · cases h; rfl
      · exact names_multiply h
    · cases h
    · cases h

theorem unknowns_simplify {e r : Equation} (h : e.simplify = .ok r) :
    r.unknowns = e.unknowns := by
  rw [unknowns_eq, unknowns_eq, names_simplify h]

theorem unknowns_merge? {t : Term} (ht : t.isConstant) {us ts : List Term}
    (h : merge? t us = .ok (some ts)) :
    (ts.map Term.name).filter (fun n => !n.isBlank) =
      (us.map Term.name).filter fun n => !n.isBlank := by
  induction us generalizing ts with
  | nil => cases h
  | cons u us ih =>
    rw [merge?] at h
    split at h
    · next hn =>
      have hu : u.name.isBlank := by rw [hn]; exact ht
      obtain ⟨sum, _, h⟩ := bind_eq_ok.1 h
      cases h
      split
      · simp [hu]
      · simp [Term.withCoefficient, hu]
    · obtain ⟨r, hr, h⟩ := bind_eq_ok.1 h
      cases r with
      | none => cases h
      | some r => cases h; simp [List.filter_cons, ih hr]

/-- A constant brings no variable and removes none. -/
theorem unknowns_addTerm_constant {e r : Equation} {t : Term} (ht : t.isConstant)
    (h : e.addTerm t = .ok r) : r.unknowns.Perm e.unknowns := by
  rw [addTerm] at h
  split at h
  · cases h; exact .refl _
  · obtain ⟨m, hm, h⟩ := bind_eq_ok.1 h
    rw [unknowns_eq, unknowns_eq]
    cases m with
    | some ts => cases h; rw [unknowns_merge? ht hm]
    | none =>
      cases h
      have hb : t.name.isBlank := ht
      have key := ((sortBy_perm e.policy.compare (e.terms ++ [t])).map Term.name).filter
        fun n => !n.isBlank
      simpa [hb, Policy.sort] using key

theorem names_takeOut? {n : Name} {ts us : List Term} {t : Term}
    (h : takeOut? n ts = some (t, us)) :
    t.name = n ∧ (ts.map Term.name).Perm (n :: us.map Term.name) := by
  induction ts generalizing us with
  | nil => cases h
  | cons u ts ih =>
    rw [takeOut?] at h
    split at h
    · next hn => cases h; exact ⟨hn, by rw [List.map_cons, hn]⟩
    · obtain ⟨⟨w, ws⟩, hw, h⟩ := Option.map_eq_some_iff.1 h
      cases h
      obtain ⟨hn, hp⟩ := ih hw
      exact ⟨hn, by simpa using (hp.cons u.name).trans (.swap _ _ _)⟩

/-- A substitution removes one occurrence of its variable. -/
theorem unknowns_substitute? {e r : Equation} {n : Name} (hn : n.isBlank = false) {x : Fraction}
    (h : e.substitute? n x = .ok (some r)) : e.unknowns.Perm (n :: r.unknowns) := by
  rw [substitute?] at h
  split at h
  · cases h
  · next t ts ht =>
    obtain ⟨y, _, h⟩ := bind_eq_ok.1 h
    obtain ⟨s, hs, h⟩ := bind_eq_ok.1 h
    obtain ⟨r', hr, h⟩ := bind_eq_ok.1 h
    cases h
    have hadd := unknowns_addTerm_constant rfl hs
    have hout := ((names_takeOut? ht).2.filter fun n => !n.isBlank)
    rw [unknowns_simplify hr, unknowns_eq e]
    refine hout.trans ?_
    rw [List.filter_cons_of_pos (by simp [hn]), ← unknowns_eq { e with terms := ts }]
    exact hadd.symm.cons n

/-- A direct solution gives a value to a variable, not to the constant. -/
theorem isBlank_of_solution? {e : Equation} {n : Name} {x : Fraction}
    (h : e.solution? = .ok (some (.assignment n x))) : n.isBlank = false := by
  have key : ∀ t, e.variableTerms = [t] → t.name.isBlank = false := by
    intro t ht
    have hm : t ∈ e.variableTerms := by rw [ht]; exact List.mem_singleton.2 rfl
    simpa [variableTerms, Term.isConstant] using (List.mem_filter.1 hm).2
  rw [solution?] at h
  split at h
  · cases h
  · split at h
    · cases h
    · next ht => cases h; exact key _ ht
    · next ht =>
      obtain ⟨c, _, h⟩ := bind_eq_ok.1 h
      split at h
      · cases h; exact key _ ht
      · cases h
      · cases h
    · cases h

end Equation
end ExactLinear
