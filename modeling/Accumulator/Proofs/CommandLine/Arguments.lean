import Accumulator.CommandLine.Dispatch

/-!
# Reading arguments

Reading further arguments takes nothing back: an option keeps the value that it was given, and the
operand stays. Once the operand has been read, its text has no influence on how the other arguments
are read.
-/

namespace Accumulator.CommandLine

variable {spec : CommandSpec} {given next last : Given} {operand value : Text} {o : OptionSpec}

/-! ## Single steps -/

theorem readArguments_cons (spec : CommandSpec) (given : Given) (argument : Text)
    (rest : List Text) :
    readArguments spec given (argument :: rest) =
      if argument = ['-', '-'] then conclude spec (readOperands spec given rest)
      else
        match readArgument spec given argument, rest with
        | .misuse, _ => .misuse
        | .help, _ => .help
        | .next next, rest => readArguments spec next rest
        | .awaiting _ _, [] => .misuse
        | .awaiting given o, value :: rest =>
            if isPlain value then
              match given.addValue? o value with
              | some next => readArguments spec next rest
              | none => .misuse
            else .misuse :=
  readArguments.eq_def spec given (argument :: rest)

theorem readArguments_of_next {argument : Text} (hdashes : argument ≠ ['-', '-'])
    (h : readArgument spec given argument = .next next) (rest : List Text) :
    readArguments spec given (argument :: rest) = readArguments spec next rest := by
  rw [readArguments_cons, if_neg hdashes, h]

theorem readArguments_of_awaiting {argument : Text} (hdashes : argument ≠ ['-', '-'])
    (h : readArgument spec given argument = .awaiting next o) (value : Text) (rest : List Text) :
    readArguments spec given (argument :: value :: rest) =
      if isPlain value then
        match next.addValue? o value with
        | some last => readArguments spec last rest
        | none => .misuse
      else .misuse := by
  rw [readArguments_cons, if_neg hdashes, h]

theorem ne_dashes_of_isPlain {argument : Text} (h : isPlain argument = true) :
    argument ≠ ['-', '-'] := by
  rintro rfl
  exact absurd h (by decide)

theorem readArgument_of_isPlain {argument : Text} (h : isPlain argument = true)
    (hspec : spec.hasOperand = true) (hgiven : given.operand = none) :
    readArgument spec given argument = .next { given with operand := some argument } := by
  have hadd : given.addOperand? spec argument = some { given with operand := some argument } := by
    simp [Given.addOperand?, hspec, hgiven]
  unfold readArgument
  split
  · exact absurd h (by simp [isPlain])
  · exact absurd h (by simp [isPlain])
  · rw [hadd]

/-! ## What stays -/

namespace Given

/-- All that was given before is still given. -/
structure Extends (given next : Given) : Prop where
  value : ∀ {name value}, given.value? name = some value → next.value? name = some value
  operand : ∀ {operand}, given.operand = some operand → next.operand = some operand

theorem Extends.refl (given : Given) : given.Extends given := ⟨id, id⟩

theorem Extends.trans (first : given.Extends next) (second : next.Extends last) :
    given.Extends last :=
  ⟨second.value ∘ first.value, second.operand ∘ first.operand⟩

theorem addValue?_eq (given : Given) (o : OptionSpec) (value : Text) :
    given.addValue? o value =
      if given.has o.name = false ∧ o.accepts.all (· value) = true then
        some { given with
          values := (o.name, if o.accepts.isSome then value else []) :: given.values }
      else none := by
  rw [addValue?]
  cases given.has o.name <;> cases o.accepts <;> simp

theorem extends_of_addValue? (h : given.addValue? o value = some next) : given.Extends next := by
  rw [addValue?_eq] at h
  split at h
  · rename_i hnew
    obtain rfl := Option.some.inj h
    refine ⟨fun {name other} hname => ?_, id⟩
    have hne : (name == o.name) = false := by
      rw [beq_eq_false_iff_ne]
      rintro rfl
      simp [has, hname] at hnew
    rw [value?, List.lookup_cons, hne]
    exact hname
  · cases h

theorem operand_of_addValue? (h : given.addValue? o value = some next) :
    next.operand = given.operand := by
  rw [addValue?_eq] at h
  split at h
  · obtain rfl := Option.some.inj h
    rfl
  · cases h

theorem addOperand?_of_some (h : given.operand = some operand) (spec : CommandSpec)
    (value : Text) : given.addOperand? spec value = none := by
  simp [addOperand?, h]

theorem extends_of_addOperand? (h : given.addOperand? spec value = some next) :
    given.Extends next := by
  refine ⟨fun hvalue => ?_, fun hoperand => ?_⟩
  · rw [addOperand?] at h
    split at h
    · obtain rfl := Option.some.inj h
      exact hvalue
    · cases h
  · rw [addOperand?_of_some hoperand] at h
    cases h

end Given

/-- What has been given after a step, unless it ends the reading. -/
def ArgumentStep.given? : ArgumentStep → Option Given
  | .next given | .awaiting given _ => some given
  | .misuse | .help => none

theorem extends_of_readOption {attached : Option Text}
    (h : (readOption given o attached).given? = some next) : given.Extends next := by
  unfold readOption at h
  split at h
  · cases h
  · obtain rfl := Option.some.inj h
    exact .refl given
  · split at h
    · rename_i hadd
      obtain rfl := Option.some.inj h
      exact Given.extends_of_addValue? hadd
    · cases h

/-- What is given already plays no part in cutting an argument. -/
theorem exists_readLong (spec : CommandSpec) (body : Text) :
    ∃ name attached, ∀ given, readLong spec given body =
      match spec.named? name with
      | some o => readOption given o attached
      | none => if name = "help".toList ∧ attached = none then .help else .misuse := by
  cases hcut : body.cutAtFirst (· == '=') with
  | none =>
      refine ⟨body, none, fun given => ?_⟩
      rewrite [readLong, hcut]
      rfl
  | some cut =>
      refine ⟨cut.1, some cut.2, fun given => ?_⟩
      rewrite [readLong, hcut]
      rfl

theorem extends_of_readLong {body : Text} (h : (readLong spec given body).given? = some next) :
    given.Extends next := by
  obtain ⟨name, attached, hread⟩ := exists_readLong spec body
  rw [hread] at h
  cases hnamed : spec.named? name with
  | some o =>
      rw [hnamed] at h
      exact extends_of_readOption h
  | none =>
      simp only [hnamed] at h
      split at h <;> cases h

theorem extends_of_readLetters {letters : Text}
    (h : (readLetters spec given letters).given? = some next) : given.Extends next := by
  fun_induction readLetters spec given letters with
  | case1 given =>
      obtain rfl := Option.some.inj h
      exact .refl given
  | case2 | case3 | case6 => cases h
  | case4 => exact extends_of_readOption h
  | case5 given letter rest o hletter haccepts next hadd ih =>
      exact (Given.extends_of_addValue? hadd).trans (ih h)

theorem extends_of_readArgument {argument : Text}
    (h : (readArgument spec given argument).given? = some next) : given.Extends next := by
  unfold readArgument at h
  split at h
  · exact extends_of_readLong h
  · exact extends_of_readLetters h
  · split at h
    · rename_i hadd
      obtain rfl := Option.some.inj h
      exact Given.extends_of_addOperand? hadd
    · cases h

theorem extends_of_readOperands {operands : List Text}
    (h : readOperands spec given operands = some last) : given.Extends last := by
  fun_induction readOperands spec given operands with
  | case1 given =>
      obtain rfl := Option.some.inj h
      exact .refl given
  | case2 given operand rest next hadd ih =>
      exact (Given.extends_of_addOperand? hadd).trans (ih h)
  | case3 => cases h

theorem eq_some_of_conclude {given? : Option Given} (h : conclude spec given? = .given last) :
    given? = some last := by
  cases given? with
  | none => cases h
  | some given =>
      simp only [conclude] at h
      split at h
      · cases h
      · rw [Reading.given.inj h]

/-- The arguments that follow add to what was given. -/
theorem extends_of_readArguments {arguments : List Text}
    (h : readArguments spec given arguments = .given last) : given.Extends last := by
  fun_induction readArguments spec given arguments with
  | case1 given =>
      obtain rfl := Option.some.inj (eq_some_of_conclude h)
      exact .refl given
  | case2 => exact extends_of_readOperands (eq_some_of_conclude h)
  | case3 | case4 | case6 | case8 | case9 => cases h
  | case5 given argument hdashes next rest hread ih =>
      exact (extends_of_readArgument (congrArg ArgumentStep.given? hread)).trans (ih h)
  | case7 given argument hdashes named o value rest hread hplain next hadd ih =>
      have hnamed := extends_of_readArgument (congrArg ArgumentStep.given? hread)
      exact hnamed.trans ((Given.extends_of_addValue? hadd).trans (ih h))

/-! ## The operand -/

/-- The same options with another operand, or without one. -/
def Given.withOperand (given : Given) (operand : Option Text) : Given :=
  { given with operand := operand }

/-- The same step with another operand. -/
def ArgumentStep.withOperand (operand : Option Text) : ArgumentStep → ArgumentStep
  | .misuse => .misuse
  | .help => .help
  | .next given => .next (given.withOperand operand)
  | .awaiting given o => .awaiting (given.withOperand operand) o

/-- The same outcome with another operand. -/
def Reading.withOperand (operand : Option Text) : Reading → Reading
  | .misuse => .misuse
  | .help => .help
  | .given arguments => .given (arguments.withOperand operand)

theorem addValue?_withOperand (given : Given) (operand : Option Text) (o : OptionSpec)
    (value : Text) :
    (given.withOperand operand).addValue? o value =
      (given.addValue? o value).map (Given.withOperand · operand) := by
  have hhas : (given.withOperand operand).has o.name = given.has o.name := rfl
  rw [Given.addValue?_eq, Given.addValue?_eq, hhas]
  split <;> rfl

theorem readOption_withOperand (given : Given) (operand : Option Text) (o : OptionSpec)
    (attached : Option Text) :
    readOption (given.withOperand operand) o attached =
      (readOption given o attached).withOperand operand := by
  unfold readOption
  cases o.accepts with
  | none =>
      cases attached with
      | none =>
          simp only [addValue?_withOperand]
          cases given.addValue? o (none.getD []) <;> rfl
      | some value => rfl
  | some accepts =>
      cases attached with
      | none => rfl
      | some value =>
          simp only [addValue?_withOperand]
          cases given.addValue? o ((some value).getD []) <;> rfl

theorem readLong_withOperand (given : Given) (operand : Option Text) (body : Text) :
    readLong spec (given.withOperand operand) body =
      (readLong spec given body).withOperand operand := by
  obtain ⟨name, attached, hread⟩ := exists_readLong spec body
  rw [hread, hread]
  cases spec.named? name with
  | some o => exact readOption_withOperand given operand o attached
  | none =>
      dsimp only
      split <;> rfl

theorem readLetters_withOperand (given : Given) (operand : Option Text) (letters : Text) :
    readLetters spec (given.withOperand operand) letters =
      (readLetters spec given letters).withOperand operand := by
  fun_induction readLetters spec given letters with
  | case1 => rfl
  | case2 given rest hletter => simp [readLetters, hletter, ArgumentStep.withOperand]
  | case3 given letter rest hletter hhelp =>
      simp [readLetters, hletter, hhelp, ArgumentStep.withOperand]
  | case4 given letter rest o hletter accepts haccepts =>
      rw [readLetters, hletter]
      simp only [haccepts]
      exact readOption_withOperand given operand o (attachedValue rest)
  | case5 given letter rest o hletter haccepts next hadd ih =>
      rw [readLetters, hletter]
      simp only [haccepts, addValue?_withOperand, hadd, Option.map_some]
      exact ih
  | case6 given letter rest o hletter haccepts hadd =>
      rw [readLetters, hletter]
      simp only [haccepts, addValue?_withOperand, hadd, Option.map_none]
      rfl

/-- Options leave the operand alone. -/
theorem operand_of_not_isPlain {argument : Text} (hplain : isPlain argument = false)
    (h : (readArgument spec given argument).given? = some next) : next.operand = given.operand := by
  have hkept : ∀ {step : ArgumentStep}, step = step.withOperand given.operand →
      step.given? = some next → next.operand = given.operand := by
    intro step hstep hnext
    cases step with
    | misuse | help => cases hnext
    | next _ | awaiting _ _ =>
        rw [hstep] at hnext
        obtain rfl := Option.some.inj hnext
        rfl
  unfold readArgument at h
  split at h
  · exact hkept (readLong_withOperand given given.operand _) h
  · exact hkept (readLetters_withOperand given given.operand _) h
  · rename_i hlong hletters
    exfalso
    unfold isPlain at hplain
    split at hplain
    · cases hplain
    · rename_i body hsingle
      cases body with
      | nil => exact hsingle rfl
      | cons letter rest => exact hletters letter rest rfl
    · cases hplain

variable {first second : Text}

theorem readArgument_withOperand (h : given.operand = some first) (second argument : Text) :
    readArgument spec (given.withOperand (some second)) argument =
      (readArgument spec given argument).withOperand (some second) := by
  have hsecond : (given.withOperand (some second)).operand = some second := rfl
  unfold readArgument
  split
  · exact readLong_withOperand given (some second) _
  · exact readLetters_withOperand given (some second) _
  · rw [Given.addOperand?_of_some h, Given.addOperand?_of_some hsecond]
    rfl

theorem readArgument_next_withOperand {argument : Text} (h : given.operand = some first)
    (hread : readArgument spec given argument = .next next) (second : Text) :
    readArgument spec (given.withOperand (some second)) argument =
      .next (next.withOperand (some second)) := by
  rw [readArgument_withOperand h, hread]
  rfl

theorem readArgument_awaiting_withOperand {argument : Text} (h : given.operand = some first)
    (hread : readArgument spec given argument = .awaiting next o) (second : Text) :
    readArgument spec (given.withOperand (some second)) argument =
      .awaiting (next.withOperand (some second)) o := by
  rw [readArgument_withOperand h, hread]
  rfl

theorem readOperands_withOperand (h : given.operand = some first) (spec : CommandSpec)
    (second : Text) (operands : List Text) :
    readOperands spec (given.withOperand (some second)) operands =
      (readOperands spec given operands).map (Given.withOperand · (some second)) := by
  have hsecond : (given.withOperand (some second)).operand = some second := rfl
  cases operands with
  | nil => rfl
  | cons _ _ =>
      rw [readOperands, readOperands, Given.addOperand?_of_some h,
        Given.addOperand?_of_some hsecond]
      rfl

theorem conclude_of_some (h : given.operand = some first) :
    conclude spec (some given) = .given given := by
  simp [conclude, h]

theorem conclude_withOperand (given : Given) (second : Text) :
    conclude spec (some (given.withOperand (some second))) =
      .given (given.withOperand (some second)) := by
  simp [conclude, Given.withOperand]

/-- How the arguments after the operand are read does not depend on its text. -/
theorem readArguments_withOperand (h : given.operand = some first) (second : Text)
    (arguments : List Text) :
    readArguments spec (given.withOperand (some second)) arguments =
      (readArguments spec given arguments).withOperand (some second) := by
  fun_induction readArguments spec given arguments with
  | case1 given =>
      rw [readArguments, conclude_of_some h]
      exact conclude_withOperand given second
  | case2 given rest =>
      rw [readArguments_cons, if_pos rfl, readOperands_withOperand h]
      cases hlast : readOperands spec given rest with
      | none => rfl
      | some last =>
          rw [Option.map_some, conclude_of_some ((extends_of_readOperands hlast).operand h)]
          exact conclude_withOperand last second
  | case3 given argument rest hdashes hread | case4 given argument rest hdashes hread =>
      rw [readArguments_cons, if_neg hdashes, readArgument_withOperand h, hread]
      rfl
  | case5 given argument hdashes next rest hread ih =>
      have hnext := (extends_of_readArgument (congrArg ArgumentStep.given? hread)).operand h
      rw [readArguments_of_next hdashes (readArgument_next_withOperand h hread second), ih hnext]
  | case6 given argument hdashes named o hread =>
      rw [readArguments_cons, if_neg hdashes, readArgument_awaiting_withOperand h hread]
      rfl
  | case7 given argument hdashes named o value rest hread hplain next hadd ih =>
      have hnamed := (extends_of_readArgument (congrArg ArgumentStep.given? hread)).operand h
      have hnext := (Given.extends_of_addValue? hadd).operand hnamed
      rw [readArguments_of_awaiting hdashes (readArgument_awaiting_withOperand h hread second),
        if_pos hplain, addValue?_withOperand, hadd]
      exact ih hnext
  | case8 given argument hdashes named o value rest hread hplain hadd =>
      rw [readArguments_of_awaiting hdashes (readArgument_awaiting_withOperand h hread second),
        if_pos hplain, addValue?_withOperand, hadd]
      rfl
  | case9 given argument hdashes named o value rest hread hplain =>
      rw [readArguments_of_awaiting hdashes (readArgument_awaiting_withOperand h hread second),
        if_neg hplain]
      rfl

end Accumulator.CommandLine
