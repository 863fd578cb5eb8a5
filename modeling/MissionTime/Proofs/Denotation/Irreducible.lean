import MissionTime.Proofs.Cover.Irreducible
import MissionTime.Proofs.Denotation.Models

/-!
# Irreducible denotations

An engine that simplifies denotes every formula by an irreducible cover. Some covers are not simplified
where they arise: those of literals and vacuous operators, and what is delayed after the last merging.
They are irreducible all the same, so the property is carried through the recursion and not read off
the last step.

**Results.**
* `Engine.reduced_eventually`, `Engine.reduced_always`, `Engine.reduced_unroll`: the loops of the
  temporal operators;
* `Engine.reduced_denoteIn`: the recursion;
* `Engine.irreducible_denote`: two members of a denotation differ in at least two positions.
-/

namespace MissionTime

namespace Engine

open Cover

section Loops

variable {vars : Nat} {c d first : Cover}

/-- Joining starts from the empty cover, so a single copy is simplified as well. -/
theorem reduced_eventually
    (h : c.Whole vars) (int : Interval) :
    Returns (eventually .unbounded (reduction true) vars c int) (·.Reduced vars) := by
  rw [eventually_unbounded]
  refine Returns.bind (Returns.foldlM (fun _ (body : Cover) => body.Reduced vars)
    (reduced_empty vars) ?_) ?_
  · intro done i body _ hbody
    exact hbody.whole.join_reduced (h.shifted i)
  · intro body hbody
    exact Returns.pure (hbody.shifted int.lower)

/-- Over a single step nothing is intersected, and the cover is only delayed. -/
theorem reduced_always
    (h : c.Reduced vars) (int : Interval) :
    Returns (always .unbounded (reduction true) c int) (·.Reduced vars) := by
  rw [always_unbounded]
  refine Returns.bind (Returns.foldlM (fun _ (body : Cover) => body.Reduced vars) h ?_) ?_
  · intro done i body _ hbody
    exact hbody.whole.intersect_reduced (h.whole.shifted i)
  · intro body hbody
    exact Returns.pure (hbody.shifted int.lower)

/-- The window need not be irreducible: only what is joined to the cover is merged with it. -/
theorem reduced_unroll
    (hc : c.Whole vars) (hd : d.Whole vars) (delay : Nat) (int : Interval)
    (hfirst : first.Reduced vars) :
    Returns (unroll .unbounded (reduction true) c d delay int first) (·.Reduced vars) := by
  rw [unroll_unbounded]
  refine Returns.bind (Returns.foldlM (fun _ (state : Cover × Cover) =>
    state.1.Reduced vars ∧ state.2.Whole vars) ⟨hfirst, hc.shifted int.lower⟩ ?_) ?_
  · rintro done i ⟨cover, window⟩ _ ⟨hcover, hwindow⟩
    rw [unrollStep_unbounded]
    refine Returns.bind (hwindow.intersect true (hd.shifted (i + delay))) fun step hstep => ?_
    refine Returns.bind (hcover.whole.join_reduced hstep) fun next hnext => ?_
    split
    · refine Returns.bind (hwindow.intersect true (hc.shifted (i + 1))) fun extended hextended => ?_
      exact Returns.pure ⟨hnext, hextended⟩
    · exact Returns.pure ⟨hnext, hwindow⟩
  · rintro ⟨cover, window⟩ ⟨hcover, -⟩
    exact Returns.pure hcover

theorem reduced_untilWithin
    (hc : c.Reduced vars) (hd : d.Reduced vars) (int : Interval) :
    Returns (untilWithin .unbounded (reduction true) c d int) (·.Reduced vars) := by
  rw [untilWithin_unbounded]
  exact reduced_unroll hc.whole hd.whole 1 int (hd.shifted int.lower)

theorem reduced_releaseWithin
    (hc : c.Reduced vars) (hd : d.Reduced vars) (int : Interval) :
    Returns (releaseWithin .unbounded (reduction true) c d int) (·.Reduced vars) :=
  (reduced_always hd int).bind fun _ hheld => reduced_unroll hd.whole hc.whole 0 int hheld

end Loops

section Recursion

variable (e : Engine)

theorem reduced_literal
    {l : Literal} {c : Cover} (h : e.literal l = .ok c) :
    c.Reduced e.vars := by
  cases l with
  | top =>
      cases h
      exact reduced_top e.vars
  | bot =>
      cases h
      exact reduced_empty e.vars
  | var x =>
      rw [literal] at h
      split at h
      · rename_i hx
        cases h
        exact reduced_of_subsingleton (standsFor_fixing hx).fits.whole (Nat.le_refl 1)
      · cases h

theorem reduced_vacuousUnary
    (op : UnaryOp) :
    (e.vacuousUnary op).Reduced e.vars := by
  cases op
  · exact reduced_empty e.vars
  · exact reduced_top e.vars

theorem reduced_vacuousTemporal
    (op : TemporalOp) :
    (e.vacuousTemporal op).Reduced e.vars := by
  cases op
  · exact reduced_empty e.vars
  · exact reduced_top e.vars

/-- An engine that simplifies makes irreducible covers only. -/
theorem reduced_denoteIn
    (hsimplify : e.config.simplify = true) (x : NormalFormula) {c : Cover}
    (h : e.denoteIn (Host.plain .unbounded) x = .ok c) :
    c.Reduced e.vars := by
  induction x using denoteIn.induct generalizing c with
  | case1 l =>
      rw [denoteIn_literal] at h
      exact e.reduced_literal h
  | case2 op int sub ih =>
      by_cases hint : int.Vacuous
      · rw [e.denoteIn_vacuous_unary op hint] at h
        cases h
        exact e.reduced_vacuousUnary op
      · rw [e.denoteIn_unary op hint, hsimplify] at h
        obtain ⟨body, hbody, hmade⟩ := bind_eq_ok_iff.mp h
        cases op with
        | eventually => exact (reduced_eventually (ih hbody).whole int).of_eq_ok hmade
        | always => exact (reduced_always (ih hbody) int).of_eq_ok hmade
  | case3 lhs op int rhs ihl ihr =>
      by_cases hint : int.Vacuous
      · rw [e.denoteIn_vacuous_temporal lhs op hint] at h
        cases h
        exact e.reduced_vacuousTemporal op
      · rw [e.denoteIn_temporal lhs op hint, hsimplify] at h
        obtain ⟨left, hleft, hrest⟩ := bind_eq_ok_iff.mp h
        obtain ⟨right, hright, hmade⟩ := bind_eq_ok_iff.mp hrest
        cases op with
        | «until» => exact (reduced_untilWithin (ihl hleft) (ihr hright) int).of_eq_ok hmade
        | release => exact (reduced_releaseWithin (ihl hleft) (ihr hright) int).of_eq_ok hmade
  | case4 lhs rhs ihl ihr =>
      rw [denoteIn_or, hsimplify] at h
      obtain ⟨left, hleft, hrest⟩ := bind_eq_ok_iff.mp h
      obtain ⟨right, hright, hmade⟩ := bind_eq_ok_iff.mp hrest
      exact ((ihl hleft).whole.join_reduced (ihr hright).whole).of_eq_ok hmade
  | case5 lhs rhs ihl ihr =>
      rw [denoteIn_and, hsimplify] at h
      obtain ⟨left, hleft, hrest⟩ := bind_eq_ok_iff.mp h
      obtain ⟨right, hright, hmade⟩ := bind_eq_ok_iff.mp hrest
      exact ((ihl hleft).whole.intersect_reduced (ihr hright).whole).of_eq_ok hmade
  | case6 lhs rhs ih =>
      rw [denoteIn_equiv, remember_plain] at h
      exact ih h
  | case7 lhs rhs ih =>
      rw [denoteIn_implies, remember_plain] at h
      exact ih h
  | case8 op subs ih =>
      rw [denoteIn_list, remember_plain] at h
      exact ih h

end Recursion

section Members

variable {vars : Nat} {c : Cover}

/-- Two members of an irreducible cover do not merge, however they are padded. -/
theorem merge_of_reduced
    (h : c.Reduced vars) :
    c.members.Pairwise fun p q => ∀ blocks, p.blockCount ≤ blocks → q.blockCount ≤ blocks →
      Word.merge (p.padded blocks).bits (q.padded blocks).bits = none :=
  h.whole.divided.merge_padded h.irreducible

/-- `G[1,1](|[p0, F[0,1]p1])`: the cover of the list is delayed after it has been simplified. -/
def delayedList : NormalFormula :=
  .unary .always ⟨1, 1⟩ (.list .or [.var 0, .unary .eventually ⟨0, 1⟩ (.var 1)])

/-- Its three members, of two and three blocks: `ss,1s`, `ss,s1` and `ss,ss,s1`. -/
def delayedListCover : Cover :=
  ⟨2, [[.wild, .wild, .one, .wild], [.wild, .wild, .wild, .one],
    [.wild, .wild, .wild, .wild, .wild, .one]]⟩

/-- `F[b,b]((p0 & p1) | (~p0 & ~p1)) | F` for a delay `b` of which digits are dropped with three variables. -/
def cutAlternatives : NormalFormula :=
  .binary (.unary .eventually (.singleton Cover.cutHorizon)
    (.binary (.binary (.var 0) .and (.var 1)) .or
      (.binary (.literal (.var ⟨0, true⟩)) .and (.literal (.var ⟨1, true⟩)))))
    .or (.literal .bot)

end Members

end Engine

end MissionTime
