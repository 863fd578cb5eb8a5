import MissionTime.Proofs.Denotation.Coupling
import MissionTime.Proofs.Denotation.Soundness

/-!
# The lengths of a run

A run computes lengths only to delay covers. Where the longest delay is admitted, all of them are, and
the run is the one with all digits. Where digits are never dropped, the run is that one, too, or stops.

**Definitions.**
* `Engine.stopping`: the relation of a computation to one that may stop at a length instead.

**Results.**
* `Engine.eventually_admitted` and the like: windows whose steps are admitted;
* `Engine.denoteIn_admitted` and `Engine.denote_admitted`: runs whose longest delay is admitted;
* `Engine.denoteIn_kept`: runs that return without having dropped a digit.
-/

namespace MissionTime

namespace Engine

open Cover

section Windows

variable {a : Arithmetic} {vars : Nat} {simplify : Bool} {most some blocks : Nat} {c d first : Cover}
  {P Q F : Tape → Prop} {int : Interval}

theorem foldlM_congr
    {α β : Type} {step step' : β → α → Except Error β} {items : List α}
    (h : ∀ state, ∀ item ∈ items, step state item = step' state item) (start : β) :
    items.foldlM step start = items.foldlM step' start := by
  induction items generalizing start with
  | nil => rfl
  | cons item items ih =>
      rw [List.foldlM_cons, List.foldlM_cons, h start item List.mem_cons_self]
      exact congrArg _ (funext fun next =>
        ih (fun state other hother => h state other (List.mem_cons_of_mem item hother)) next)

/-- A cover of the width is delayed exactly up to a number of steps that is admitted. -/
theorem shift_admitted
    (hc : c.width = vars) (hadmits : a.Admits most vars) {steps : Nat} (hle : steps ≤ most) :
    c.shift a steps = .ok (c.shifted steps) :=
  shift_eq (hc ▸ hadmits.mono hle)

/-- A loop that returns covers of the width is followed by an exact delay. -/
theorem bind_shift_admitted
    {run : Except Error Cover} {steps : Nat} (hadmits : a.Admits steps vars)
    (h : Returns (run >>= fun body => Except.ok (body.shifted steps)) (·.width = vars)) :
    (run >>= fun body => body.shift a steps) =
      run >>= fun body => Except.ok (body.shifted steps) := by
  cases run with
  | error cause => rfl
  | ok body =>
      have width : body.width = vars := Returns.of_eq_ok (a := body.shifted steps) h rfl
      exact shift_admitted width hadmits (Nat.le_refl _)

theorem eventually_admitted
    (h : c.Realizes vars blocks P) (hint : int.lower ≤ int.upper)
    (hadmits : a.Admits int.upper vars) :
    eventually a (reduction simplify) vars c int =
      eventually .unbounded (reduction simplify) vars c int := by
  have returned := returns_eventually simplify h hint
  rw [eventually_unbounded] at returned ⊢
  have steps : ∀ body : Cover, ∀ i ∈ List.range (int.width + 1),
      (c.shift a i >>= fun copy => joinWith (reduction simplify) body copy) =
        joinWith (reduction simplify) body (c.shifted i) := by
    intro body i hi
    have hle : i ≤ int.upper :=
      Nat.le_trans (Nat.le_of_lt_succ (List.mem_range.mp hi)) (Nat.sub_le _ _)
    rw [shift_admitted h.fits.width hadmits hle]
    rfl
  change (List.foldlM (fun body i => c.shift a i >>= joinWith (reduction simplify) body) _ _ >>=
    fun body => body.shift a int.lower) = _
  rw [foldlM_congr steps]
  exact bind_shift_admitted (hadmits.mono hint) (returned.mono fun e he => he.fits.width)

theorem always_admitted
    (h : c.Realizes vars blocks P) (hint : int.lower ≤ int.upper)
    (hadmits : a.Admits int.upper vars) :
    always a (reduction simplify) c int = always .unbounded (reduction simplify) c int := by
  have returned := returns_always simplify h hint
  rw [always_unbounded] at returned ⊢
  have steps : ∀ body : Cover, ∀ i ∈ List.range' 1 int.width,
      (c.shift a i >>= fun copy => intersectWith (reduction simplify) body copy) =
        intersectWith (reduction simplify) body (c.shifted i) := by
    intro body i hi
    have hrange := (List.mem_range'_1.mp hi).2
    have hwidth : int.width ≤ int.upper := Nat.sub_le _ _
    rw [shift_admitted h.fits.width hadmits (by omega)]
    rfl
  change (List.foldlM (fun body i => c.shift a i >>= intersectWith (reduction simplify) body) _ _ >>=
    fun body => body.shift a int.lower) = _
  rw [foldlM_congr steps]
  exact bind_shift_admitted (hadmits.mono hint) (returned.mono fun e he => he.fits.width)

theorem unroll_admitted
    (hc : c.width = vars) (hd : d.width = vars) (hint : int.lower ≤ int.upper)
    (hadmits : a.Admits int.upper vars) {delay : Nat} (hdelay : delay ≤ 1) (first : Cover) :
    unroll a (reduction simplify) c d delay int first =
      unroll .unbounded (reduction simplify) c d delay int first := by
  have total : int.lower + int.width = int.upper := Nat.add_sub_cancel' hint
  have steps : ∀ state : Cover × Cover, ∀ i ∈ List.range' int.lower int.width,
      unrollStep a (reduction simplify) c d delay int.upper state i =
        unrollStep .unbounded (reduction simplify) c d delay int.upper state i := by
    rintro ⟨cover, window⟩ i hi
    have hrange := (List.mem_range'_1.mp hi).2
    rw [unrollStep, unrollStep, shift_admitted hd hadmits (show i + delay ≤ int.upper by omega),
      shift_unbounded, shift_unbounded]
    split
    · rename_i hlast
      rw [shift_admitted hc hadmits (Nat.le_of_lt hlast)]
    · rfl
  rw [unroll_unbounded, ← foldlM_congr steps]
  change (c.shift a int.lower >>= _) = _
  rw [shift_admitted hc hadmits hint]
  rfl

theorem untilWithin_admitted
    (hc : c.width = vars) (hd : d.width = vars) (hint : int.lower ≤ int.upper)
    (hadmits : a.Admits int.upper vars) :
    untilWithin a (reduction simplify) c d int =
      untilWithin .unbounded (reduction simplify) c d int := by
  rw [untilWithin_unbounded, ← unroll_admitted hc hd hint hadmits (Nat.le_refl 1)]
  change (d.shift a int.lower >>= _) = _
  rw [shift_admitted hd hadmits hint]
  rfl

theorem releaseWithin_admitted
    (hc : c.width = vars) (hd : d.Realizes vars blocks P) (hint : int.lower ≤ int.upper)
    (hadmits : a.Admits int.upper vars) :
    releaseWithin a (reduction simplify) c d int =
      releaseWithin .unbounded (reduction simplify) c d int := by
  rw [releaseWithin, releaseWithin, always_admitted hd hint hadmits]
  exact congrArg _ (funext fun held =>
    unroll_admitted hd.fits.width hc hint hadmits (Nat.zero_le 1) held)

end Windows

section Runs

variable {a : Arithmetic} (e : Engine)

/-- A run whose longest delay is admitted is the run with all digits. -/
theorem denoteIn_admitted
    (x : NormalFormula) (h : a.Admits x.toFormula.delay e.vars) :
    e.denoteIn (Host.plain a) x = e.denoteIn (Host.plain .unbounded) x := by
  induction x using denoteIn.induct with
  | case1 l => rw [denoteIn_literal, denoteIn_literal]
  | case2 op int sub ih =>
      by_cases hint : int.Vacuous
      · rw [e.denoteIn_vacuous_unary op hint, e.denoteIn_vacuous_unary op hint]
      · have bounds := Interval.not_vacuous_iff.mp hint
        rw [NormalFormula.toFormula, Formula.delay, if_neg hint] at h
        have body := ih (h.mono (Nat.le_max_right _ _))
        rw [e.denoteIn_unary op hint, e.denoteIn_unary op hint, body]
        cases hc : e.denoteIn (Host.plain .unbounded) sub with
        | error cause => rfl
        | ok c =>
            have stands := (e.settles_denoteIn sub).standsFor hc
            have window := h.mono (Nat.le_max_left _ _)
            cases op with
            | eventually => exact eventually_admitted (realizes_of_standsFor stands) bounds window
            | always => exact always_admitted (realizes_of_standsFor stands) bounds window
  | case3 lhs op int rhs ihl ihr =>
      by_cases hint : int.Vacuous
      · rw [e.denoteIn_vacuous_temporal lhs op hint, e.denoteIn_vacuous_temporal lhs op hint]
      · have bounds := Interval.not_vacuous_iff.mp hint
        rw [NormalFormula.toFormula, Formula.delay, if_neg hint] at h
        have operands := h.mono (Nat.le_max_right _ _)
        have left := ihl (operands.mono (Nat.le_max_left _ _))
        have right := ihr (operands.mono (Nat.le_max_right _ _))
        rw [e.denoteIn_temporal lhs op hint, e.denoteIn_temporal lhs op hint, left, right]
        cases hc : e.denoteIn (Host.plain .unbounded) lhs with
        | error cause => rfl
        | ok c =>
            cases hd : e.denoteIn (Host.plain .unbounded) rhs with
            | error cause => rfl
            | ok d =>
                have standsc := (e.settles_denoteIn lhs).standsFor hc
                have standsd := (e.settles_denoteIn rhs).standsFor hd
                have window := h.mono (Nat.le_max_left _ _)
                cases op with
                | «until» =>
                    exact untilWithin_admitted standsc.fits.width standsd.fits.width bounds window
                | release =>
                    exact releaseWithin_admitted standsc.fits.width (realizes_of_standsFor standsd)
                      bounds window
  | case4 lhs rhs ihl ihr =>
      rw [NormalFormula.toFormula, Formula.delay] at h
      rw [denoteIn_or, denoteIn_or, ihl (h.mono (Nat.le_max_left _ _)),
        ihr (h.mono (Nat.le_max_right _ _))]
  | case5 lhs rhs ihl ihr =>
      rw [NormalFormula.toFormula, Formula.delay] at h
      rw [denoteIn_and, denoteIn_and, ihl (h.mono (Nat.le_max_left _ _)),
        ihr (h.mono (Nat.le_max_right _ _))]
  | case6 lhs rhs ih =>
      rw [← Formula.blind_delay.expand_equiv lhs rhs] at h
      rw [denoteIn_equiv, denoteIn_equiv, remember_plain, remember_plain, ih h]
  | case7 lhs rhs ih =>
      rw [← Formula.blind_delay.expand_implies lhs rhs] at h
      rw [denoteIn_implies, denoteIn_implies, remember_plain, remember_plain, ih h]
  | case8 op subs ih =>
      rw [← Formula.blind_delay.fold op subs] at h
      rw [denoteIn_list, denoteIn_list, remember_plain, remember_plain, ih h]

theorem denote_admitted
    (x : NormalFormula) (h : a.Admits x.toFormula.delay e.vars) :
    e.denote a x = e.denote .unbounded x := by
  rw [denote_eq, denote_eq, e.denoteIn_admitted x h]

/-- A computation does what another one does, or stops at a length. -/
def stopping : Coupling (Except Error) (Except Error) where
  Holds run run' := run = run' ∨ ∃ blocks width, run = .error (.tooManyBits blocks width)
  pure _ := Or.inl rfl
  lift _ := Or.inl rfl
  bind {α β run run' next next'} h hnext := by
    rcases h with rfl | ⟨blocks, width, rfl⟩
    · cases run with
      | ok answer => exact hnext answer
      | error cause => exact Or.inl rfl
    · exact Or.inr ⟨blocks, width, rfl⟩

theorem hosts_stopping
    (h : a ≠ .wrapping) :
    stopping.Hosts e (Host.plain a) (Host.plain .unbounded) where
  emit _ := Or.inl rfl
  shift c steps := by
    rcases shift_cases h steps c with hexact | hstop
    · exact Or.inl (hexact.trans (shift_unbounded steps c).symm)
    · exact Or.inr ⟨steps, c.width, hstop⟩
  remember x {make make'} hmake _ := by
    rwa [remember_plain, remember_plain]

/-- What a run returns that has not dropped a digit is what the run with all digits returns. -/
theorem denoteIn_kept
    (x : NormalFormula) (h : a.Keeps x.toFormula.delay e.vars) {c : Cover}
    (hrun : e.denoteIn (Host.plain a) x = .ok c) :
    e.denoteIn (Host.plain .unbounded) x = .ok c := by
  by_cases hwrapping : a = .wrapping
  · rwa [e.denoteIn_admitted x (Or.inr (h hwrapping))] at hrun
  · rcases Coupling.denoteIn (e.hosts_stopping hwrapping) x with hsame | ⟨blocks, width, hstop⟩
    · exact hsame.symm.trans hrun
    · rw [hstop] at hrun
      cases hrun

theorem denote_kept
    (x : NormalFormula) (h : a.Keeps x.toFormula.delay e.vars) {c : Cover}
    (hrun : e.denote a x = .ok c) :
    e.denote .unbounded x = .ok c := by
  rw [denote_eq] at hrun ⊢
  obtain ⟨made, hmade, hresult⟩ := bind_eq_ok_iff.mp hrun
  rw [e.denoteIn_kept x h hmade]
  exact hresult

end Runs

end Engine

end MissionTime
