import CallAtlas.Proofs.Options.CommandLine

/-! # Logging options among the others

The log settings are read from the logging options alone, wherever they stand. The command line is
read without the logging options, with one exception: an option whose value stands apart takes the
next argument as it is. A logging option in that place is a value of the one reader and an option of
the other. Where this does not happen, each of the two readers sees only its own arguments.
-/
namespace CallAtlas.CommandLine

def isLogging (argument : Bytes) : Bool := (Log.Flag.parse? argument).isSome

def takesNext (argument : Bytes) : Bool := (ValueOption.ofName? argument).isSome

/-- The arguments that are taken as the value of the option before them. -/
def takenValues : List Bytes → List Bytes
  | [] => []
  | argument :: rest =>
    if takesNext argument then
      match rest with
      | value :: rest => value :: takenValues rest
      | [] => []
    else takenValues rest

/-- The arguments without the logging options that are no values. -/
def withoutLogging : List Bytes → List Bytes
  | [] => []
  | argument :: rest =>
    if takesNext argument then
      match rest with
      | value :: rest => argument :: value :: withoutLogging rest
      | [] => [argument]
    else if isLogging argument then withoutLogging rest
    else argument :: withoutLogging rest

theorem isLogging_of_takesNext {argument : Bytes} (h : takesNext argument) :
    isLogging argument = false := by
  obtain ⟨option, named⟩ := Option.isSome_iff_exists.mp h
  rw [ValueOption.ofName?_eq_some_iff] at named
  exact not_logging_of_value (splitValue_of_not_mem (ValueOption.of_mem_names named).1) named

theorem takenValues_of_single {argument : Bytes} {rest : List Bytes}
    (single : ¬ takesNext argument) : takenValues (argument :: rest) = takenValues rest := by
  rw [takenValues.eq_def]
  exact if_neg single

/-- An argument that does not take the next one is read on its own, whatever follows. -/
theorem addAll_cons_congr {c : CommandLine} {argument : Bytes} {rest rest' : List Bytes}
    (single : takesNext argument = false) (h : ∀ c, addAll c rest = addAll c rest') :
    addAll c (argument :: rest) = addAll c (argument :: rest') := by
  cases split : splitValue argument with
  | mk name inline =>
    rw [addAll, addAll, split]
    dsimp only
    split
    · exact h c
    · split
      · simp only [h]
      · rename_i option named
        cases inline with
        | some value => simp only [h]
        | none =>
          rw [eq_of_splitValue split, takesNext, named] at single
          cases single

theorem addAll_withoutLogging (c : CommandLine) (arguments : List Bytes) :
    addAll c (withoutLogging arguments) = addAll c arguments := by
  fun_induction withoutLogging arguments generalizing c with
  | case1 => rfl
  | case2 argument takes value rest ih =>
    obtain ⟨option, named⟩ := Option.isSome_iff_exists.mp takes
    rw [ValueOption.ofName?_eq_some_iff] at named
    simp only [addAll_apart named, ih]
  | case3 => rfl
  | case4 argument rest _ logging ih =>
    rw [ih, addAll_logging (Log.Flag.isSome_parse?.mp logging)]
  | case5 argument rest single _ ih =>
    exact addAll_cons_congr (Bool.not_eq_true _ ▸ single) ih

/-- All logging options can be left out just if none of them is a value. -/
theorem withoutLogging_eq_filter_iff (arguments : List Bytes) :
    withoutLogging arguments = arguments.filter (!isLogging ·) ↔
      ∀ value ∈ takenValues arguments, isLogging value = false := by
  fun_induction withoutLogging arguments with
  | case1 => simp [takenValues]
  | case2 argument takes value rest ih =>
    have plain := isLogging_of_takesNext takes
    rw [takenValues, if_pos takes, List.forall_mem_cons, ← ih,
      List.filter_cons_of_pos (by simp [plain])]
    cases logging : isLogging value with
    | false => simp [logging]
    | true =>
      simp only [List.cons.injEq, true_and, Bool.true_eq_false, false_and, iff_false]
      intro same
      have kept : value ∈ (value :: rest).filter (!isLogging ·) := same ▸ List.mem_cons_self
      simp [logging] at kept
  | case3 argument takes => simp [takenValues, takes, isLogging_of_takesNext takes]
  | case4 argument rest single logging ih =>
    rw [takenValues_of_single single, ← ih]
    simp [logging]
  | case5 argument rest single plain ih =>
    rw [takenValues_of_single single, ← ih]
    simp [plain]

theorem ofArguments_filter (arguments : List Bytes) (environment : Bytes) :
    Log.Config.ofArguments (arguments.filter isLogging) environment =
      Log.Config.ofArguments arguments environment := by
  have same : (arguments.filter isLogging).filterMap Log.Flag.parse? =
      arguments.filterMap Log.Flag.parse? := by
    rw [List.filterMap_filter]
    congr 1
    funext argument
    cases h : Log.Flag.parse? argument <;> simp [isLogging, h]
  rw [Log.Config.ofArguments, same]
  rfl

/-- The log settings are those of the logging options alone. The command line is read as if the
logging options that are no values were left out, and these are all of them exactly if no option
takes one as its value. -/
theorem logging_options_apart (arguments : List Bytes) (environment : Bytes) :
    Log.Config.ofArguments arguments environment =
        Log.Config.ofArguments (arguments.filter isLogging) environment ∧
      parse arguments = parse (withoutLogging arguments) ∧
      (withoutLogging arguments = arguments.filter (!isLogging ·) ↔
        ∀ value ∈ takenValues arguments, isLogging value = false) := by
  refine ⟨(ofArguments_filter arguments environment).symm, ?_,
    withoutLogging_eq_filter_iff arguments⟩
  rw [parse, parse, addAll_withoutLogging]

/-- A logging option in the place of a value. -/
def takenOption : List Bytes := [text "proj", text "--output", text "-v"]

/-- The directory of the output is named by a logging option, and without that option the arguments
are refused. -/
theorem takenOption_interferes :
    parse takenOption = .ok { projectPath := text "proj", outputDir := some (text "-v") } ∧
      parse (takenOption.filter (!isLogging ·)) = .error (.missingValue (text "--output")) := by
  decide

end CallAtlas.CommandLine
