import MissionTime.Proofs.Denotation.Plain
import MissionTime.Proofs.Denotation.Windows
import MissionTime.Proofs.Extent
import MissionTime.Proofs.Meaning
import MissionTime.Proofs.Recording

/-!
# Soundness of denotations

The cover of a normal form covers the traces, at every step, at which the normal form holds. A run
without log and memory returns that cover, unless a live variable does not belong to the engine; then
it fails on the leftmost one.

**Definitions.**
* `Cover.StandsFor`: a cover covers what a formula says and reads no more steps than the formula;
* `Engine.Settles`: a run returns such a cover or refuses a variable.

**Results.**
* `Engine.settles_denoteIn`: every run settles its formula.
-/

namespace MissionTime

/-- The cover covers a trace from a step on exactly if the formula holds there, and its members do not
have more blocks than the formula reads. -/
structure Cover.StandsFor (c : Cover) (vars : Nat) (f : Formula) : Prop where
  fits : c.Fits vars f.reach
  covers : 0 < vars → ∀ (s : Trace) (t : Nat),
    c.Covers (s.tape vars t) ↔ s.holdsAt f t = true

namespace Engine

open Cover

section Literals

variable {vars : Nat}

theorem standsFor_empty
    {f : Formula} (h : ∀ (s : Trace) (t : Nat), s.holdsAt f t = false) :
    (empty vars).StandsFor vars f where
  fits := fits_empty vars _
  covers _ s t := iff_of_false (covers_empty vars _) (by simp [h])

theorem standsFor_top
    {f : Formula} (h : ∀ (s : Trace) (t : Nat), s.holdsAt f t = true) :
    (top vars).StandsFor vars f where
  fits := fits_top vars f.reach_pos
  covers hvars s t := iff_of_true (covers_top hvars _) (h s t)

/-- The block of a literal asks for the value of its variable. -/
theorem standsFor_fixing
    {x : Variable} (h : x.index < vars) :
    Cover.StandsFor ⟨vars, [(Pattern.fixing vars x).bits]⟩ vars (.literal (.var x)) where
  fits := by
    refine ⟨rfl, fun w hw => ?_⟩
    rw [List.mem_singleton.mp hw, Word.Fills]
    simp only [Pattern.fixing, List.length_set, List.length_replicate, Formula.reach]
    exact ⟨by omega, Nat.dvd_refl vars, by omega⟩
  covers _ s t := by
    rw [Covers, rowsCover_cons, or_iff_left (rowsCover_nil _), Pattern.fixing,
      Word.matches_set h, s.tape_of_lt t h, Trace.holdsAt]
    cases x with
    | mk index negated => cases negated <;> simp [Trace.value, Bit.ofBool, Bit.values]

end Literals

section Settling

/-- The run returns a cover that stands for the formula, or refuses the leftmost live variable that
does not belong to the engine. -/
structure Settles (vars : Nat) (run : Except Error Cover) (f : Formula) : Prop where
  returns : f.firstBeyond vars = none → Returns run (·.StandsFor vars f)
  refuses : ∀ i, f.firstBeyond vars = some i →
    ∃ negated, run = .error (.variableOutOfRange ⟨i, negated⟩ vars)

namespace Settles

variable {vars : Nat} {run run' : Except Error Cover} {f g h : Formula}

/-- A run settles every formula that reads as far, as many variables, and means the same. -/
theorem congr
    (hf : Settles vars run f) (hreach : f.reach = g.reach)
    (hbeyond : f.firstBeyond vars = g.firstBeyond vars)
    (hholds : ∀ (s : Trace) (t : Nat), s.holdsAt f t = s.holdsAt g t) :
    Settles vars run g where
  returns hnone := by
    refine (hf.returns (hbeyond.trans hnone)).mono fun c hc => ⟨hreach ▸ hc.fits, ?_⟩
    intro hvars s t
    rw [hc.covers hvars, hholds]
  refuses i hsome := hf.refuses i (hbeyond.trans hsome)

theorem pure
    {c : Cover} (hnone : f.firstBeyond vars = none) (hc : c.StandsFor vars f) :
    Settles vars (.ok c) f where
  returns _ := Returns.pure hc
  refuses i hsome := by
    rw [hnone] at hsome
    cases hsome

/-- What a run returns stands for its formula. -/
theorem standsFor
    (hf : Settles vars run f) {c : Cover} (hrun : run = .ok c) :
    c.StandsFor vars f := by
  cases hbeyond : f.firstBeyond vars with
  | none => exact (hf.returns hbeyond).of_eq_ok hrun
  | some i =>
      obtain ⟨negated, hrefused⟩ := hf.refuses i hbeyond
      rw [hrefused] at hrun
      cases hrun

/-- What refuses an operand refuses the operator. -/
theorem bind
    (hf : Settles vars run f) (hbeyond : g.firstBeyond vars = f.firstBeyond vars)
    {next : Cover → Except Error Cover}
    (hnext : ∀ c, c.StandsFor vars f → Returns (next c) (·.StandsFor vars g)) :
    Settles vars (run >>= next) g where
  returns hnone := (hf.returns (hbeyond.symm.trans hnone)).bind hnext
  refuses i hsome := by
    obtain ⟨negated, hrun⟩ := hf.refuses i (hbeyond.symm.trans hsome)
    exact ⟨negated, by rw [hrun]; rfl⟩

/-- The left operand is refused before the right one is looked at. -/
theorem bind₂
    (hf : Settles vars run f) (hg : Settles vars run' g)
    (hbeyond : h.firstBeyond vars = (f.firstBeyond vars).or (g.firstBeyond vars))
    {next : Cover → Cover → Except Error Cover}
    (hnext : ∀ c d, c.StandsFor vars f → d.StandsFor vars g →
      Returns (next c d) (·.StandsFor vars h)) :
    Settles vars (run >>= fun c => run' >>= next c) h where
  returns hnone := by
    rw [hbeyond] at hnone
    obtain ⟨hfnone, hgnone⟩ := Option.or_eq_none_iff.mp hnone
    refine (hf.returns hfnone).bind fun c hc => ?_
    exact (hg.returns hgnone).bind fun d hd => hnext c d hc hd
  refuses i hsome := by
    rw [hbeyond] at hsome
    cases hleft : f.firstBeyond vars with
    | some j =>
        rw [hleft] at hsome
        obtain ⟨negated, hrun⟩ := hf.refuses j hleft
        cases hsome
        exact ⟨negated, by rw [hrun]; rfl⟩
    | none =>
        rw [hleft] at hsome
        obtain ⟨c, hc, -⟩ := hf.returns hleft
        obtain ⟨negated, hrun⟩ := hg.refuses i hsome
        exact ⟨negated, by rw [hc, hrun]; rfl⟩

end Settles

end Settling

section Operators

variable {vars : Nat} (simplify : Bool) {c d : Cover} {f g : Formula}

theorem realizes_of_standsFor
    (hc : c.StandsFor vars f) :
    c.Realizes vars f.reach c.Covers :=
  ⟨hc.fits, fun _ => Iff.rfl⟩

/-- Later on the tape of a trace, the cover stands for the formula at a later step. -/
theorem covers_skip_tape
    (hc : c.StandsFor vars f) (hvars : 0 < vars) (s : Trace) (t i : Nat) :
    c.Covers ((s.tape vars t).skip vars i) ↔ s.holdsAt f (t + i) = true := by
  rw [Tape.skip, s.drop_tape hvars, hc.covers hvars]

theorem returns_or
    (hc : c.StandsFor vars f) (hd : d.StandsFor vars g) :
    Returns (joinWith (reduction simplify) c d) (·.StandsFor vars (.binary f .or g)) := by
  have left := (realizes_of_standsFor hc).mono (Nat.le_max_left f.reach g.reach)
  have right := (realizes_of_standsFor hd).mono (Nat.le_max_right f.reach g.reach)
  refine (left.join simplify right).mono fun e he => ⟨he.fits, fun hvars s t => ?_⟩
  rw [he.covers, hc.covers hvars, hd.covers hvars, Trace.holdsAt, Bool.or_eq_true]

theorem returns_and
    (hc : c.StandsFor vars f) (hd : d.StandsFor vars g) :
    Returns (intersectWith (reduction simplify) c d) (·.StandsFor vars (.binary f .and g)) := by
  have left := (realizes_of_standsFor hc).mono (Nat.le_max_left f.reach g.reach)
  have right := (realizes_of_standsFor hd).mono (Nat.le_max_right f.reach g.reach)
  refine (left.intersect simplify right).mono fun e he => ⟨he.fits, fun hvars s t => ?_⟩
  rw [he.covers, hc.covers hvars, hd.covers hvars, Trace.holdsAt, Bool.and_eq_true]

theorem returns_unary
    (op : UnaryOp) {int : Interval} (hint : ¬ int.Vacuous) (hc : c.StandsFor vars f) :
    Returns (match op with
      | .eventually => eventually .unbounded (reduction simplify) vars c int
      | .always => always .unbounded (reduction simplify) c int) (·.StandsFor vars (.unary op int f)) := by
  have bounds := Interval.not_vacuous_iff.mp hint
  have body := realizes_of_standsFor hc
  have reach : (Formula.unary op int f).reach = int.upper + f.reach := by
    rw [Formula.reach, if_neg hint]
  cases op with
  | eventually =>
      refine (returns_eventually simplify body bounds).mono fun e he =>
        ⟨reach ▸ he.fits, fun hvars s t => ?_⟩
      simp only [he.covers, covers_skip_tape hc hvars, Trace.holdsAt_eventually_iff]
  | always =>
      refine (returns_always simplify body bounds).mono fun e he =>
        ⟨reach ▸ he.fits, fun hvars s t => ?_⟩
      simp only [he.covers, covers_skip_tape hc hvars, Trace.holdsAt_always_iff]

theorem returns_temporal
    (op : TemporalOp) {int : Interval} (hint : ¬ int.Vacuous) (hc : c.StandsFor vars f)
    (hd : d.StandsFor vars g) :
    Returns (match op with
      | .until => untilWithin .unbounded (reduction simplify) c d int
      | .release => releaseWithin .unbounded (reduction simplify) c d int)
      (·.StandsFor vars (.temporal f op int g)) := by
  have bounds := Interval.not_vacuous_iff.mp hint
  have left := realizes_of_standsFor hc
  have right := realizes_of_standsFor hd
  have hright : int.upper + g.reach ≤ (Formula.temporal f op int g).reach := by
    rw [Formula.reach, if_neg hint]
    split <;> omega
  have hleft : int.lower < int.upper →
      int.upper - 1 + f.reach ≤ (Formula.temporal f op int g).reach := by
    intro hlt
    have := f.reach_pos
    rw [Formula.reach, if_neg hint, if_neg (Nat.ne_of_lt hlt)]
    omega
  cases op with
  | «until» =>
      refine (returns_untilWithin simplify left right bounds hright hleft).mono fun e he =>
        ⟨he.fits, fun hvars s t => ?_⟩
      simp only [he.covers, covers_skip_tape hc hvars, covers_skip_tape hd hvars,
        Trace.holdsAt_until_iff]
  | release =>
      refine (returns_releaseWithin simplify left right bounds hright hleft).mono fun e he =>
        ⟨he.fits, fun hvars s t => ?_⟩
      simp only [he.covers, covers_skip_tape hc hvars, covers_skip_tape hd hvars,
        Trace.holdsAt_release_iff]

end Operators

section Recursion

variable (e : Engine)

theorem settles_literal
    (l : Literal) :
    Settles e.vars (e.literal l) (.literal l) := by
  cases l with
  | top => exact Settles.pure rfl (standsFor_top fun s t => rfl)
  | bot => exact Settles.pure rfl (standsFor_empty fun s t => rfl)
  | var x =>
      rw [literal]
      by_cases hx : x.index < e.vars
      · rw [if_pos hx]
        refine Settles.pure ?_ (standsFor_fixing hx)
        simpa [Formula.firstBeyond, Formula.liveIndices] using hx
      · rw [if_neg hx]
        constructor
        · intro hnone
          simp [Formula.firstBeyond, Formula.liveIndices] at hnone
          exact absurd hnone hx
        · intro i hsome
          have hle : e.vars ≤ x.index := Nat.le_of_not_lt hx
          simp [Formula.firstBeyond, Formula.liveIndices, hle] at hsome
          exact ⟨x.negated, by rw [← hsome]⟩

/-- Every run without log and memory settles its formula. -/
theorem settles_denoteIn
    (x : NormalFormula) :
    Settles e.vars (e.denoteIn (Host.plain .unbounded) x) x.toFormula := by
  induction x using denoteIn.induct with
  | case1 l =>
      rw [denoteIn_literal]
      exact e.settles_literal l
  | case2 op int sub ih =>
      by_cases hint : int.Vacuous
      · rw [e.denoteIn_vacuous_unary op hint]
        have nobody := Formula.firstBeyond_unary e.vars op int sub.toFormula
        rw [if_pos hint] at nobody
        refine Settles.pure nobody ?_
        cases op with
        | eventually => exact standsFor_empty fun s t => s.holdsAt_vacuous_eventually hint _ t
        | always => exact standsFor_top fun s t => s.holdsAt_vacuous_always hint _ t
      · rw [e.denoteIn_unary op hint]
        have same := Formula.firstBeyond_unary e.vars op int sub.toFormula
        rw [if_neg hint] at same
        exact ih.bind same fun c hc => returns_unary _ op hint hc
  | case3 lhs op int rhs ihl ihr =>
      by_cases hint : int.Vacuous
      · rw [e.denoteIn_vacuous_temporal lhs op hint]
        have nobody := Formula.firstBeyond_temporal e.vars lhs.toFormula op int rhs.toFormula
        rw [if_pos hint] at nobody
        refine Settles.pure nobody ?_
        cases op with
        | «until» => exact standsFor_empty fun s t => s.holdsAt_vacuous_until hint _ _ t
        | release => exact standsFor_top fun s t => s.holdsAt_vacuous_release hint _ _ t
      · rw [e.denoteIn_temporal lhs op hint]
        have either := Formula.firstBeyond_temporal e.vars lhs.toFormula op int rhs.toFormula
        rw [if_neg hint] at either
        exact ihl.bind₂ ihr either fun c d hc hd => returns_temporal _ op hint hc hd
  | case4 lhs rhs ihl ihr =>
      rw [denoteIn_or]
      exact ihl.bind₂ ihr (Formula.firstBeyond_binary _ _ _ _) fun c d hc hd => returns_or _ hc hd
  | case5 lhs rhs ihl ihr =>
      rw [denoteIn_and]
      exact ihl.bind₂ ihr (Formula.firstBeyond_binary _ _ _ _) fun c d hc hd => returns_and _ hc hd
  | case6 lhs rhs ih =>
      rw [denoteIn_equiv, remember_plain]
      exact ih.congr (Formula.blind_reach.expand_equiv lhs rhs)
        ((Formula.blind_firstBeyond e.vars).expand_equiv lhs rhs)
        fun s t => s.holdsAt_expand_equiv lhs rhs t
  | case7 lhs rhs ih =>
      rw [denoteIn_implies, remember_plain]
      exact ih.congr (Formula.blind_reach.expand_implies lhs rhs)
        ((Formula.blind_firstBeyond e.vars).expand_implies lhs rhs)
        fun s t => s.holdsAt_expand_implies lhs rhs t
  | case8 op subs ih =>
      rw [denoteIn_list, remember_plain]
      exact ih.congr (Formula.blind_reach.fold op subs)
        ((Formula.blind_firstBeyond e.vars).fold op subs)
        fun s t => s.holdsAt_fold op subs t

end Recursion

end Engine

end MissionTime
